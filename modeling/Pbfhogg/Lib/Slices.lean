import Pbfhogg.Lib.FieldWalk

/-!
# Slices of a buffer

A slice is bytes and the address they lie at. A walk over the fields of a slice can note the address
of an array its handler cut out of it; what is noted is read back from the buffer.
-/

namespace Slices

open FieldWalk Fallible

structure Slice where
  addr : Nat
  bytes : Bytes

namespace Slice

/-- `s` is a run of the bytes of `buffer`. -/
def Within (buffer s : Slice) : Prop :=
  ∃ before after, buffer.bytes = before ++ (s.bytes ++ after) ∧
    s.addr = buffer.addr + before.length

/-- An empty slice may lie anywhere. -/
def Held (buffer s : Slice) : Prop := s.bytes = [] ∨ Within buffer s

lemma Within.trans {a b c : Slice} (hab : Within a b) (hbc : Within b c) : Within a c := by
  obtain ⟨before, after, hbytes, haddr⟩ := hab
  obtain ⟨before', after', hbytes', haddr'⟩ := hbc
  refine ⟨before ++ before', after' ++ after, ?_, ?_⟩
  · rw [hbytes, hbytes']
    simp only [List.append_assoc]
  · rw [haddr', haddr, List.length_append, Nat.add_assoc]

lemma Held.trans {a b c : Slice} (hab : Held a b) (hbc : Held b c) : Held a c := by
  rcases hbc with hempty | hbc
  · exact .inl hempty
  · rcases hab with hempty | hab
    · obtain ⟨before, after, hbytes, -⟩ := hbc
      rw [hempty] at hbytes
      simp only [List.nil_eq, List.append_eq_nil_iff] at hbytes
      exact .inl hbytes.2.1
    · exact .inr (hab.trans hbc)

end Slice

variable {ε σ : Type} {R : Reader ε}

/-- The address of bytes that end where `rest` of `whole` begins. -/
def endingAt (whole : Slice) (bytes rest : Bytes) : Nat :=
  whole.addr + (whole.bytes.length - rest.length) - bytes.length

variable {whole : Slice} {slot : σ → Bytes} {h : Handler ε σ}

lemma within_endingAt {cur before bytes rest : Bytes} (hsuffix : cur <:+ whole.bytes)
    (hcur : cur = before ++ (bytes ++ rest)) : whole.Within ⟨endingAt whole bytes rest, bytes⟩ := by
  obtain ⟨front, hfront⟩ := hsuffix
  rw [hcur] at hfront
  have hlength := congrArg List.length hfront
  refine ⟨front ++ before, rest, ?_, ?_⟩
  · rw [← hfront, List.append_assoc]
  · simp only [endingAt, List.length_append] at hlength ⊢
    omega

/-- `h`, which also notes where the array in `slot` lies whenever it changes. -/
def noted (whole : Slice) (slot : σ → Bytes) (h : Handler ε σ) : Handler ε (σ × Nat) :=
  fun s field wire cur => (h s.1 field wire cur).map fun p =>
    ((p.1, if slot p.1 = slot s.1 then s.2 else endingAt whole (slot p.1) p.2), p.2)

/-- A handler that changes `slot` to bytes in front of the cursor it goes on with. -/
def Cuts (slot : σ → Bytes) (h : Handler ε σ) : Prop :=
  ∀ s f w cur s' rest, h s f w cur = .ok (s', rest) →
    slot s' = slot s ∨ ∃ before, cur = before ++ (slot s' ++ rest)

lemma noted_eq_ok {s s' : σ × Nat} {f w : Nat} {cur rest : Bytes} :
    noted whole slot h s f w cur = .ok (s', rest) ↔ h s.1 f w cur = .ok (s'.1, rest) ∧
      s'.2 = if slot s'.1 = slot s.1 then s.2 else endingAt whole (slot s'.1) rest := by
  rw [noted, map_eq_ok]
  constructor
  · rintro ⟨p, hp, heq⟩
    rw [Prod.mk.injEq] at heq
    obtain ⟨rfl, rfl⟩ := heq
    exact ⟨hp, rfl⟩
  · rintro ⟨hh, hnote⟩
    refine ⟨(s'.1, rest), hh, ?_⟩
    rw [Prod.mk.injEq]
    exact ⟨Prod.ext rfl hnote, rfl⟩

lemma steps_noted (hl : Steps R h) : Steps R (noted whole slot h) := by
  intro s f w cur s' rest hh
  exact hl _ _ _ _ _ _ (noted_eq_ok.mp hh).1

lemma cuts_noted {slot' : σ → Bytes} (hcuts : Cuts slot' h) :
    Cuts (fun s => slot' s.1) (noted whole slot h) := by
  intro s f w cur s' rest hh
  exact hcuts _ _ _ _ _ _ (noted_eq_ok.mp hh).1

/-- Noting changes nothing of the walk. -/
theorem walk_noted (s : σ × Nat) (data : Bytes) :
    (walk R (noted whole slot h) s data).map Prod.fst = walk R h s.1 data := by
  refine (walk_map Prod.fst (fun s f w cur => ?_) s data).symm
  rw [noted, map_map]
  cases h s.1 f w cur <;> rfl

/-- What a walk notes is where the array lies. -/
theorem held_of_walk (hl : Steps R h) (hcuts : Cuts slot h) {s s' : σ × Nat} {data : Bytes}
    (hsuffix : data <:+ whole.bytes) (hstart : whole.Held ⟨s.2, slot s.1⟩)
    (hw : walk R (noted whole slot h) s data = .ok s') : whole.Held ⟨s'.2, slot s'.1⟩ := by
  induction hn : data.length using Nat.strongRecOn generalizing s data with
  | _ n ih =>
    rcases walk_ok_cases (steps_noted hl) hw with ⟨-, rfl⟩ | ⟨f, w, cur, s₁, rest, htag, hh, hw'⟩
    · exact hstart
    · obtain ⟨raw, hcur, -⟩ := R.skipField_split (steps_noted hl _ _ _ _ _ _ hh)
      obtain ⟨tag, htagged, -⟩ := R.readTag_split htag
      have hshrink := R.readTag_shrinks htag
      have hcursuffix : cur <:+ whole.bytes := List.IsSuffix.trans ⟨tag, htagged.symm⟩ hsuffix
      have hrest : rest <:+ whole.bytes := List.IsSuffix.trans ⟨raw, hcur.symm⟩ hcursuffix
      have hlen : rest.length < n := by
        have : cur.length = raw.length + rest.length := by simp [hcur]
        omega
      obtain ⟨hstep, hnote⟩ := noted_eq_ok.mp hh
      refine ih rest.length hlen hrest ?_ hw' rfl
      rw [hnote]
      split
      · next hsame =>
        rw [hsame]
        exact hstart
      · next hchanged =>
        obtain ⟨before, hbefore⟩ := (hcuts _ _ _ _ _ _ hstep).resolve_left hchanged
        exact .inr (within_endingAt hcursuffix hbefore)

end Slices
