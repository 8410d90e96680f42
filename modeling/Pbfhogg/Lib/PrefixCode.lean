import Pbfhogg.Lib.LeBytes
import Pbfhogg.Lib.Fallible

/-!
# Encoders whose words delimit themselves

An encoder delimits its words when a word at the front of any bytes can be told off them: two words
in front of any two tails that make the same bytes are the same. Fixed widths, counted and
terminated lists, pairs and tagged sums of such encoders delimit theirs. An encoder may fail.
-/

namespace PrefixCode

open Fallible List

variable {ε α β : Type}

variable {e enc : α → Except ε Bytes} {f : β → Except ε Bytes} {as bs : List α}
  {u v : Bytes}

def Delimits (enc : α → Except ε Bytes) : Prop :=
  ∀ {a b u v xs ys}, enc a = .ok u → enc b = .ok v → u ++ xs = v ++ ys → a = b ∧ xs = ys

lemma delimits_fixed {f : α → Bytes} {n : Nat} (hlen : ∀ a, (f a).length = n)
    (hinj : ∀ {a b}, f a = f b → a = b) :
    Delimits fun a => (.ok (f a) : Except ε Bytes) := by
  intro a b u v xs ys ha hb h
  cases ha
  cases hb
  obtain ⟨hf, hrest⟩ := append_inj h ((hlen a).trans (hlen b).symm)
  exact ⟨hinj hf, hrest⟩

/-- One word after another. -/
def seq (e : α → Except ε Bytes) (f : β → Except ε Bytes) (p : α × β) :
    Except ε Bytes :=
  (e p.1).bind fun u => (f p.2).map fun v => u ++ v

variable {e : α → Except ε Bytes}

lemma seq_ok {f : β → Except ε Bytes} {p : α × β} {w : Bytes} (h : seq e f p = .ok w) :
    ∃ u v, e p.1 = .ok u ∧ f p.2 = .ok v ∧ w = u ++ v := by
  unfold seq at h
  cases hu : e p.1 with
  | error err => simp [hu, Except.bind] at h
  | ok u =>
    cases hv : f p.2 with
    | error err => simp [hu, hv, Except.bind, Except.map] at h
    | ok v =>
      simp only [hu, hv, Except.bind, Except.map, Except.ok.injEq] at h
      exact ⟨u, v, rfl, rfl, h.symm⟩

lemma Delimits.seq {f : β → Except ε Bytes} (he : Delimits e) (hf : Delimits f) :
    Delimits (seq e f) := by
  intro a b w w' xs ys ha hb h
  obtain ⟨u, v, hu, hv, rfl⟩ := seq_ok ha
  obtain ⟨u', v', hu', hv', rfl⟩ := seq_ok hb
  rw [append_assoc, append_assoc] at h
  obtain ⟨h1, h⟩ := he hu hu' h
  obtain ⟨h2, h⟩ := hf hv hv' h
  exact ⟨Prod.ext h1 h2, h⟩

/-- A presence byte, and the word where there is one. -/
def optional (e : α → Except ε Bytes) : Option α → Except ε Bytes
  | none => .ok [0]
  | some a => (e a).map (1 :: ·)

lemma Delimits.optional (he : Delimits e) :
    Delimits (optional e) := by
  intro a b w w' xs ys ha hb h
  cases a with
  | none =>
    cases ha
    cases b with
    | none =>
      cases hb
      exact ⟨rfl, by simpa using h⟩
    | some b =>
      obtain ⟨u, -, rfl⟩ := map_eq_ok.mp hb
      simp at h
  | some a =>
    obtain ⟨u, hu, rfl⟩ := map_eq_ok.mp ha
    cases b with
    | none =>
      cases hb
      simp at h
    | some b =>
      obtain ⟨u', hu', rfl⟩ := map_eq_ok.mp hb
      obtain ⟨rfl, hrest⟩ := he hu hu' (cons.inj h).2
      exact ⟨rfl, hrest⟩

/-- A tag, and a body that the tag says how to read. -/
theorem delimits_tagged {enc body : α → Except ε Bytes} {tag : α → UInt8}
    (henc : ∀ a, enc a = (body a).map (tag a :: ·))
    (hbody : ∀ {a b u v xs ys}, tag a = tag b → body a = .ok u → body b = .ok v →
      u ++ xs = v ++ ys → a = b ∧ xs = ys) : Delimits enc := by
  intro a b w w' xs ys ha hb h
  rw [henc] at ha hb
  obtain ⟨u, hu, rfl⟩ := map_eq_ok.mp ha
  obtain ⟨v, hv, rfl⟩ := map_eq_ok.mp hb
  obtain ⟨htag, hrest⟩ := cons.inj h
  exact hbody htag hu hv hrest

/-- Word after word. -/
def writeAll (enc : α → Except ε Bytes) : List α → Except ε Bytes
  | [] => .ok []
  | a :: as => (enc a).bind fun u => (writeAll enc as).map fun v => u ++ v

lemma writeAll_cons_ok {a : α} {w : Bytes} (h : writeAll enc (a :: as) = .ok w) :
    ∃ u v, enc a = .ok u ∧ writeAll enc as = .ok v ∧ w = u ++ v :=
  @seq_ok ε α (List α) enc (writeAll enc) (a, as) w h

lemma writeAll_mem_ok {w : Bytes} (h : writeAll enc as = .ok w) :
    ∀ a ∈ as, ∃ u, enc a = .ok u := by
  induction as generalizing w with
  | nil => simp
  | cons a as ih =>
    obtain ⟨u, v, hu, hv, -⟩ := writeAll_cons_ok h
    intro b hb
    rcases mem_cons.mp hb with rfl | hb
    · exact ⟨u, hu⟩
    · exact ih hv b hb

lemma writeAll_of_mem_ok (h : ∀ a ∈ as, ∃ u, enc a = .ok u) : ∃ w, writeAll enc as = .ok w := by
  induction as with
  | nil => exact ⟨[], rfl⟩
  | cons a as ih =>
    obtain ⟨u, hu⟩ := h a mem_cons_self
    obtain ⟨v, hv⟩ := ih fun b hb => h b (mem_cons_of_mem _ hb)
    exact ⟨u ++ v, by rw [writeAll, hu, hv]; rfl⟩

/-- A list up to a byte that starts no word. -/
theorem writeAll_terminated (hd : Delimits enc) {stop : UInt8}
    (hstart : ∀ {a u}, enc a = .ok u → ∃ t w, u = t :: w ∧ t ≠ stop) {xs ys : Bytes}
    (hu : writeAll enc as = .ok u) (hv : writeAll enc bs = .ok v)
    (h : u ++ stop :: xs = v ++ stop :: ys) : as = bs ∧ xs = ys := by
  induction as generalizing bs u v with
  | nil =>
    cases hu
    cases bs with
    | nil =>
      cases hv
      exact ⟨rfl, by simpa using h⟩
    | cons b bs =>
      obtain ⟨v₁, v₂, hb, -, rfl⟩ := writeAll_cons_ok hv
      obtain ⟨t, w, rfl, ht⟩ := hstart hb
      exact absurd (cons.inj h).1.symm ht
  | cons a as ih =>
    obtain ⟨u₁, u₂, ha, has, rfl⟩ := writeAll_cons_ok hu
    cases bs with
    | nil =>
      cases hv
      obtain ⟨t, w, rfl, ht⟩ := hstart ha
      exact absurd (cons.inj h).1 ht
    | cons b bs =>
      obtain ⟨v₁, v₂, hb, hbs, rfl⟩ := writeAll_cons_ok hv
      rw [append_assoc, append_assoc] at h
      obtain ⟨rfl, h⟩ := hd ha hb h
      obtain ⟨rfl, hrest⟩ := ih has hbs h
      exact ⟨rfl, hrest⟩

lemma writeAll_counted (hd : Delimits enc) (hlen : as.length = bs.length) {xs ys : Bytes}
    (hu : writeAll enc as = .ok u) (hv : writeAll enc bs = .ok v) (h : u ++ xs = v ++ ys) :
    as = bs ∧ xs = ys := by
  induction as generalizing bs u v with
  | nil =>
    obtain rfl : bs = [] := length_eq_zero_iff.mp hlen.symm
    cases hu
    cases hv
    exact ⟨rfl, h⟩
  | cons a as ih =>
    cases bs with
    | nil => cases hlen
    | cons b bs =>
      obtain ⟨u₁, u₂, ha, has, rfl⟩ := writeAll_cons_ok hu
      obtain ⟨v₁, v₂, hb, hbs, rfl⟩ := writeAll_cons_ok hv
      rw [append_assoc, append_assoc] at h
      obtain ⟨rfl, h⟩ := hd ha hb h
      obtain ⟨rfl, hrest⟩ := ih (Nat.succ.inj hlen) has hbs h
      exact ⟨rfl, hrest⟩

/-- Words up to a relation that decides them: the same bytes are related words, one for one. -/
theorem writeAll_eq_iff {r : α → α → Prop}
    (hd : ∀ {a b u v xs ys}, enc a = .ok u → enc b = .ok v → u ++ xs = v ++ ys → r a b ∧ xs = ys)
    (hr : ∀ {a b u v}, enc a = .ok u → enc b = .ok v → r a b → u = v)
    (hne : ∀ {a u}, enc a = .ok u → u ≠ []) (hu : writeAll enc as = .ok u)
    (hv : writeAll enc bs = .ok v) : u = v ↔ List.Forall₂ r as bs := by
  induction as generalizing bs u v with
  | nil =>
    cases hu
    cases bs with
    | nil =>
      cases hv
      simp
    | cons b bs =>
      obtain ⟨v₁, v₂, hb, -, rfl⟩ := writeAll_cons_ok hv
      constructor
      · intro h
        exact absurd (append_eq_nil_iff.mp h.symm).1 (hne hb)
      · intro h
        cases h
  | cons a as ih =>
    obtain ⟨u₁, u₂, ha, has, rfl⟩ := writeAll_cons_ok hu
    cases bs with
    | nil =>
      cases hv
      constructor
      · intro h
        exact absurd (append_eq_nil_iff.mp h).1 (hne ha)
      · intro h
        cases h
    | cons b bs =>
      obtain ⟨v₁, v₂, hb, hbs, rfl⟩ := writeAll_cons_ok hv
      rw [forall₂_cons]
      constructor
      · intro h
        obtain ⟨hab, hrest⟩ := hd ha hb h
        exact ⟨hab, (ih has hbs).mp hrest⟩
      · rintro ⟨hab, hrest⟩
        rw [hr ha hb hab, (ih has hbs).mpr hrest]

/-- A stream that begins another is one of related words, read off its front. -/
theorem writeAll_take {r : α → α → Prop}
    (hd : ∀ {a b u v xs ys}, enc a = .ok u → enc b = .ok v → u ++ xs = v ++ ys → r a b ∧ xs = ys)
    (hne : ∀ {a u}, enc a = .ok u → u ≠ []) (hu : writeAll enc as = .ok u)
    (hv : writeAll enc bs = .ok v) (h : u <+: v) : List.Forall₂ r as (bs.take as.length) := by
  induction as generalizing bs u v with
  | nil => exact .nil
  | cons a as ih =>
    obtain ⟨u₁, u₂, ha, has, rfl⟩ := writeAll_cons_ok hu
    obtain ⟨w, h⟩ := h
    cases bs with
    | nil =>
      cases hv
      rw [append_assoc] at h
      exact absurd (append_eq_nil_iff.mp h).1 (hne ha)
    | cons b bs =>
      obtain ⟨v₁, v₂, hb, hbs, rfl⟩ := writeAll_cons_ok hv
      rw [append_assoc] at h
      obtain ⟨hab, hrest⟩ := hd ha hb h
      exact .cons hab (ih has hbs ⟨w, hrest⟩)

end PrefixCode
