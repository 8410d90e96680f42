import Mathlib.Data.List.AList
import Pbfhogg.Lib.Utf8
import Pbfhogg.Osc.Compact

/-!
# The string interner

`osc/interner.rs`: every string once in one text, and a table from ids to the places there. A
resolved id is a checked slice of that text; `none` is the panic.
-/

namespace OscInterner

open OscCompact Utf8

structure StringTable where
  data : List Char
  table : List (Nat × Nat)

structure StringInterner where
  strings : StringTable
  lookup : AList (fun _ : String => UInt32)

def StringInterner.new : StringInterner where
  strings := ⟨[], [(0, 0)]⟩
  lookup := AList.insert "" 0 ∅

def internerOverflow (what : String) : OscError :=
  .invalidData ("OSC string interner overflowed: more than 4294967295 " ++ what ++
    ". The overlay cannot address them without silently aliasing one string onto another")

def textLen (s : String) : Nat := (bytes s.toList).length

def intern (t : StringInterner) (s : String) : Except OscError (UInt32 × StringInterner) :=
  match t.lookup.lookup s with
  | some id => .ok (id, t)
  | none =>
    let offset := (bytes t.strings.data).length
    if 2 ^ 32 ≤ offset then .error (internerOverflow "string bytes")
    else if 2 ^ 32 ≤ textLen s then .error (internerOverflow "a single string")
    else if 2 ^ 32 ≤ offset + textLen s then .error (internerOverflow "string bytes")
    else if 2 ^ 32 ≤ t.strings.table.length then .error (internerOverflow "distinct strings")
    else
      let id := UInt32.ofNat t.strings.table.length
      .ok (id, ⟨⟨t.strings.data ++ s.toList, t.strings.table ++ [(offset, textLen s)]⟩,
        t.lookup.insert s id⟩)

def StringTable.resolve (t : StringTable) (id : UInt32) : Option String := do
  let (start, len) ← t.table[id.toNat]?
  let text ← slice? t.data start (start + len)
  return String.ofList text

/-- A table that was interned into. -/
def Extends (t t' : StringTable) : Prop :=
  (∃ more, t'.data = t.data ++ more) ∧ ∃ entries, t'.table = t.table ++ entries

lemma Extends.refl (t : StringTable) : Extends t t :=
  ⟨⟨[], by simp⟩, ⟨[], by simp⟩⟩

lemma Extends.trans {t t' t'' : StringTable} (h : Extends t t') (h' : Extends t' t'') :
    Extends t t'' := by
  obtain ⟨⟨more, hdata⟩, ⟨entries, htable⟩⟩ := h
  obtain ⟨⟨more', hdata'⟩, ⟨entries', htable'⟩⟩ := h'
  exact ⟨⟨more ++ more', by rw [hdata', hdata, List.append_assoc]⟩,
    ⟨entries ++ entries', by rw [htable', htable, List.append_assoc]⟩⟩

lemma Extends.resolve {t t' : StringTable} (h : Extends t t') {id : UInt32} {s : String}
    (hs : t.resolve id = some s) : t'.resolve id = some s := by
  obtain ⟨⟨more, hdata⟩, ⟨entries, htable⟩⟩ := h
  simp only [StringTable.resolve, Option.bind_eq_bind, Option.bind_eq_some_iff] at hs ⊢
  obtain ⟨p, hp, text, htext, hs⟩ := hs
  refine ⟨p, ?_, text, ?_, hs⟩
  · have hlt := (List.getElem?_eq_some_iff.mp hp).1
    rw [htable, List.getElem?_append_left hlt, hp]
  · rw [hdata]
    exact slice?_append_right htext more

/-- Every string looked up resolves to itself. -/
def Faithful (t : StringInterner) : Prop :=
  ∀ s id, t.lookup.lookup s = some id → t.strings.resolve id = some s

lemma faithful_new : Faithful StringInterner.new := by
  intro s id h
  by_cases hs : s = ""
  · subst hs
    rw [StringInterner.new, AList.lookup_insert] at h
    cases h
    rfl
  · rw [StringInterner.new, AList.lookup_insert_ne hs] at h
    simp at h

lemma intern_spec {t t' : StringInterner} (ht : Faithful t) {s : String} {id : UInt32}
    (h : intern t s = .ok (id, t')) :
    Faithful t' ∧ Extends t.strings t'.strings ∧ t'.strings.resolve id = some s := by
  unfold intern at h
  split at h
  · next found hfound =>
    cases h
    exact ⟨ht, .refl _, ht s _ hfound⟩
  · next hnew =>
    simp only at h
    split at h
    · cases h
    · split at h
      · cases h
      · split at h
        · cases h
        · split at h
          · cases h
          · next hroom =>
            cases h
            have hext : Extends t.strings ⟨t.strings.data ++ s.toList,
                t.strings.table ++ [((bytes t.strings.data).length, textLen s)]⟩ :=
              ⟨⟨_, rfl⟩, ⟨_, rfl⟩⟩
            have hself : StringTable.resolve ⟨t.strings.data ++ s.toList,
                t.strings.table ++ [((bytes t.strings.data).length, textLen s)]⟩
                (UInt32.ofNat t.strings.table.length) = some s := by
              have hid : (UInt32.ofNat t.strings.table.length).toNat = t.strings.table.length :=
                UInt32.toNat_ofNat_of_lt' (by
                  rw [UInt32.size]
                  omega)
              have hslice := slice?_append t.strings.data s.toList []
              rw [List.append_nil] at hslice
              simp only [StringTable.resolve, hid, List.getElem?_concat_length, textLen, hslice,
                Option.bind_eq_bind, Option.bind_some, String.ofList_toList, Option.pure_def]
            refine ⟨?_, hext, hself⟩
            intro s' id' hs'
            by_cases heq : s' = s
            · subst heq
              rw [AList.lookup_insert] at hs'
              cases hs'
              exact hself
            · rw [AList.lookup_insert_ne heq] at hs'
              exact hext.resolve (ht s' id' hs')

end OscInterner
