import Mathlib.Data.List.Nodup
import Mathlib.Data.List.Perm.Basic
import Pbfhogg.Lib.Fallible

/-!
# A reorder buffer

Numbered items arrive in any order, wait in a buffer keyed by their number, and are processed in
number order: after each arrival for as long as the next number is there. The effect is that of
processing the items one after another.
-/

namespace Reorder

open Fallible List

universe u v
variable {σ α : Type u} {ε : Type v}

structure State (σ α : Type u) where
  buffer : List (Nat × α)
  nextSeq : Nat
  inner : σ

def insert (buffer : List (Nat × α)) (seq : Nat) (a : α) : List (Nat × α) :=
  (seq, a) :: buffer.filter fun p => p.1 ≠ seq

def remove (buffer : List (Nat × α)) (seq : Nat) : List (Nat × α) :=
  buffer.filter fun p => p.1 ≠ seq

/-- Take items out while the next number is in the buffer. Each round removes one,
so the length of the buffer is fuel enough. -/
def advance (process : σ → α → Except ε σ) : Nat → State σ α → Except ε (State σ α)
  | 0, s => .ok s
  | fuel + 1, s =>
    match s.buffer.lookup s.nextSeq with
    | none => .ok s
    | some a => do
      let inner ← process s.inner a
      advance process fuel ⟨remove s.buffer s.nextSeq, s.nextSeq + 1, inner⟩

variable (process : σ → α → Except ε σ)

def receive (s : State σ α) (p : Nat × α) :
    Except ε (State σ α) :=
  let buffer := insert s.buffer p.1 p.2
  advance process buffer.length { s with buffer := buffer }

def run (s : State σ α) (arrivals : List (Nat × α)) :
    Except ε (State σ α) :=
  arrivals.foldlM (receive process) s

/-- The consumer has processed exactly the items below its next number, each of
them received, and the buffer holds the received items from there on. -/
structure Reflects (process : σ → α → Except ε σ) (start : σ) (items : List α)
    (received : List (Nat × α)) (s : State σ α) : Prop where
  keys_nodup : (s.buffer.map Prod.fst).Nodup
  mem_buffer : ∀ p, p ∈ s.buffer ↔ p ∈ received ∧ s.nextSeq ≤ p.1
  processed : (items.take s.nextSeq).foldlM process start = .ok s.inner
  next_le : s.nextSeq ≤ items.length
  taken : ∀ i, i < s.nextSeq → i ∈ received.map Prod.fst

variable {buffer : List (Nat × α)}

lemma lookup_eq_some (h : (buffer.map Prod.fst).Nodup) {seq : Nat} {a : α} :
    buffer.lookup seq = some a ↔ (seq, a) ∈ buffer := by
  induction buffer with
  | nil => simp
  | cons p ps ih =>
    obtain ⟨key, b⟩ := p
    rw [map_cons, nodup_cons] at h
    by_cases hk : seq = key
    · subst hk
      have hout : (seq, a) ∉ ps := by
        intro hmem
        exact h.1 (mem_map.mpr ⟨_, hmem, rfl⟩)
      simp [hout, eq_comm]
    · have hne : (seq == key) = false := by simpa using hk
      simp [lookup_cons, hne, ih h.2, hk]

lemma lookup_eq_none (h : (buffer.map Prod.fst).Nodup) {seq : Nat} :
    buffer.lookup seq = none ↔ seq ∉ buffer.map Prod.fst := by
  constructor
  · intro hnone hmem
    obtain ⟨p, hp, rfl⟩ := mem_map.mp hmem
    rw [(lookup_eq_some h).mpr hp] at hnone
    cases hnone
  · intro hout
    cases hlook : buffer.lookup seq with
    | none => rfl
    | some a => exact absurd (mem_map_of_mem ((lookup_eq_some h).mp hlook)) hout

lemma mem_remove {seq : Nat} {p : Nat × α} : p ∈ remove buffer seq ↔ p ∈ buffer ∧ p.1 ≠ seq := by
  simp [remove]

lemma nodup_remove (h : (buffer.map Prod.fst).Nodup) (seq : Nat) :
    ((remove buffer seq).map Prod.fst).Nodup :=
  h.sublist (filter_sublist.map _)

lemma length_remove_lt {seq : Nat} {a : α} (h : (seq, a) ∈ buffer) :
    (remove buffer seq).length < buffer.length := by
  apply length_filter_lt_length_iff_exists.mpr
  exact ⟨(seq, a), h, by simp⟩

section Run

variable {process : σ → α → Except ε σ} {start last : σ} {items : List α}

lemma foldlM_take_succ {n : Nat} {s t : σ} {a : α}
    (hpre : (items.take n).foldlM process start = .ok s) (hget : items[n]? = some a)
    (hstep : process s a = .ok t) : (items.take (n + 1)).foldlM process start = .ok t := by
  rw [take_add_one, foldlM_append, hpre, hget]
  simp [ok_bind, hstep]

/-- A run of all the items passes through a good state after each of them. -/
lemma exists_step (hall : items.foldlM process start = .ok last) {n : Nat} {s : σ} {a : α}
    (hpre : (items.take n).foldlM process start = .ok s) (hget : items[n]? = some a) :
    ∃ t, process s a = .ok t := by
  have hsplit : items = items.take n ++ a :: items.drop (n + 1) := by
    have hlt : n < items.length := (List.getElem?_eq_some_iff.mp hget).1
    have hval := (List.getElem?_eq_some_iff.mp hget).2
    rw [← hval, ← List.drop_eq_getElem_cons hlt, List.take_append_drop]
  rw [hsplit, foldlM_append, hpre, ok_bind, foldlM_cons] at hall
  obtain ⟨t, ht, _⟩ := bind_eq_ok.mp hall
  exact ⟨t, ht⟩

variable {received : List (Nat × α)}

lemma advance_reflects (hall : items.foldlM process start = .ok last)
    (hrec : ∀ p ∈ received, items[p.1]? = some p.2) {fuel : Nat} {s : State σ α}
    (h : Reflects process start items received s) (hfuel : s.buffer.length ≤ fuel) :
    ∃ t, advance process fuel s = .ok t ∧ Reflects process start items received t ∧
      t.nextSeq ∉ t.buffer.map Prod.fst := by
  induction fuel generalizing s with
  | zero =>
    have hnil : s.buffer = [] := length_eq_zero_iff.mp (by omega)
    exact ⟨s, rfl, h, by simp [hnil]⟩
  | succ fuel ih =>
    cases hlook : s.buffer.lookup s.nextSeq with
    | none =>
      refine ⟨s, by simp [advance, hlook], h, ?_⟩
      exact (lookup_eq_none h.keys_nodup).mp hlook
    | some a =>
      have hmem := (lookup_eq_some h.keys_nodup).mp hlook
      have hin := ((h.mem_buffer _).mp hmem).1
      have hget : items[s.nextSeq]? = some a := hrec _ hin
      have hlt : s.nextSeq < items.length := (List.getElem?_eq_some_iff.mp hget).1
      obtain ⟨inner, hinner⟩ := exists_step hall h.processed hget
      have hnext : Reflects process start items received
          ⟨remove s.buffer s.nextSeq, s.nextSeq + 1, inner⟩ := by
        constructor
        · exact nodup_remove h.keys_nodup _
        · intro p
          rw [mem_remove, h.mem_buffer]
          constructor
          · rintro ⟨⟨hp, hle⟩, hne⟩
            exact ⟨hp, by simp only at hne ⊢; omega⟩
          · rintro ⟨hp, hle⟩
            simp only at hle
            exact ⟨⟨hp, by omega⟩, by omega⟩
        · exact foldlM_take_succ h.processed hget hinner
        · simp only
          omega
        · intro i hi
          simp only at hi
          by_cases heq : i = s.nextSeq
          · subst heq
            exact mem_map_of_mem hin
          · apply h.taken
            omega
      have hshort := length_remove_lt hmem
      obtain ⟨t, ht, hrefl, hhead⟩ := ih hnext (by simp only; omega)
      exact ⟨t, by simp [advance, hlook, hinner, ok_bind, ht], hrefl, hhead⟩

lemma receive_reflects (hall : items.foldlM process start = .ok last)
    {p : Nat × α} (hrec : ∀ q ∈ received ++ [p], items[q.1]? = some q.2)
    (hfresh : p.1 ∉ received.map Prod.fst) {s : State σ α}
    (h : Reflects process start items received s) :
    ∃ t, receive process s p = .ok t ∧ Reflects process start items (received ++ [p]) t ∧
      t.nextSeq ∉ t.buffer.map Prod.fst := by
  have hnotin : p.1 ∉ s.buffer.map Prod.fst := by
    intro hmem
    obtain ⟨q, hq, hkey⟩ := mem_map.mp hmem
    exact hfresh (hkey ▸ mem_map_of_mem ((h.mem_buffer q).mp hq).1)
  have hge : s.nextSeq ≤ p.1 := by
    by_contra hlt
    exact hfresh (h.taken p.1 (by omega))
  have hinsert : insert s.buffer p.1 p.2 = p :: s.buffer := by
    have hkeep : (s.buffer.filter fun q => decide (q.1 ≠ p.1)) = s.buffer := by
      apply filter_eq_self.mpr
      intro q hq
      have hne : q.1 ≠ p.1 := fun heq => hnotin (heq ▸ mem_map_of_mem hq)
      simpa using hne
    rw [insert, hkeep]
  have hheld : Reflects process start items (received ++ [p])
      { s with buffer := insert s.buffer p.1 p.2 } := by
    rw [hinsert]
    constructor
    · rw [map_cons]
      exact nodup_cons.mpr ⟨hnotin, h.keys_nodup⟩
    · intro q
      rw [mem_cons, h.mem_buffer, mem_append, mem_singleton]
      constructor
      · rintro (rfl | ⟨hq, hle⟩)
        · exact ⟨.inr rfl, hge⟩
        · exact ⟨.inl hq, hle⟩
      · rintro ⟨hq | rfl, hle⟩
        · exact .inr ⟨hq, hle⟩
        · exact .inl rfl
    · exact h.processed
    · exact h.next_le
    · intro i hi
      rw [map_append]
      exact mem_append_left _ (h.taken i hi)
  exact advance_reflects hall hrec hheld (Nat.le_refl _)

lemma run_reflects (hall : items.foldlM process start = .ok last) {arrivals : List (Nat × α)}
    (hrec : ∀ q ∈ received ++ arrivals, items[q.1]? = some q.2)
    (hfresh : ((received ++ arrivals).map Prod.fst).Nodup) {s : State σ α}
    (h : Reflects process start items received s) (hhead : s.nextSeq ∉ s.buffer.map Prod.fst) :
    ∃ t, run process s arrivals = .ok t ∧ Reflects process start items (received ++ arrivals) t ∧
      t.nextSeq ∉ t.buffer.map Prod.fst := by
  induction arrivals generalizing received s with
  | nil => exact ⟨s, rfl, by simpa using h, hhead⟩
  | cons p ps ih =>
    have hassoc : received ++ p :: ps = (received ++ [p]) ++ ps := by simp
    have hnew : p.1 ∉ received.map Prod.fst := by
      rw [map_append, nodup_append] at hfresh
      intro hmem
      exact hfresh.2.2 p.1 hmem p.1 (by simp) rfl
    obtain ⟨u, hu, hur, huh⟩ :=
      receive_reflects hall (fun q hq => hrec q (by
        rw [hassoc]
        exact mem_append_left _ hq)) hnew h
    obtain ⟨t, ht, htr, hth⟩ := ih (hassoc ▸ hrec) (hassoc ▸ hfresh) hur huh
    refine ⟨t, ?_, hassoc ▸ htr, hth⟩
    rw [run, foldlM_cons, hu, ok_bind]
    exact ht

/-- Items that arrive in any order, each exactly once, are processed as if they had
arrived in order, and the buffer is empty at the end. -/
theorem run_of_perm (hall : items.foldlM process start = .ok last) {arrivals : List (Nat × α)}
    (hperm : arrivals.Perm (items.zipIdx.map fun p => (p.2, p.1))) :
    run process ⟨[], 0, start⟩ arrivals = .ok ⟨[], items.length, last⟩ := by
  have hkeys : (arrivals.map Prod.fst).Perm (range items.length) := by
    have hmap := hperm.map Prod.fst
    rwa [List.map_map, show Prod.fst ∘ (fun p : α × Nat => (p.2, p.1)) = Prod.snd from rfl,
      List.zipIdx_map_snd, ← List.range_eq_range'] at hmap
  have hitems : ∀ q ∈ arrivals, items[q.1]? = some q.2 := by
    intro q hq
    obtain ⟨p, hp, rfl⟩ := mem_map.mp (hperm.mem_iff.mp hq)
    exact mem_zipIdx_iff_getElem?.mp hp
  have hstart : Reflects process start items [] ⟨[], 0, start⟩ := by
    constructor <;> simp [pure, Except.pure]
  obtain ⟨t, ht, hrefl, hhead⟩ :=
    @run_reflects σ α ε process start last items [] hall arrivals (by simpa using hitems)
      (by simpa using hkeys.nodup_iff.mpr nodup_range) _ hstart (by simp)
  have hend : t.nextSeq = items.length := by
    by_contra hne
    have hlt : t.nextSeq < items.length := Nat.lt_of_le_of_ne hrefl.next_le hne
    obtain ⟨q, hq, hqkey⟩ := mem_map.mp (hkeys.mem_iff.mpr (mem_range.mpr hlt))
    apply hhead
    rw [← hqkey]
    apply mem_map_of_mem
    exact (hrefl.mem_buffer q).mpr ⟨by simpa using hq, by omega⟩
  have hempty : t.buffer = [] := by
    rw [eq_nil_iff_forall_not_mem]
    intro q hq
    obtain ⟨hin, hle⟩ := (hrefl.mem_buffer q).mp hq
    have hlt := mem_range.mp (hkeys.mem_iff.mp (mem_map_of_mem (by simpa using hin)))
    omega
  have hlast : t.inner = last := by
    have hproc := hrefl.processed
    rw [hend, take_length, hall] at hproc
    exact (Except.ok.inj hproc).symm
  rw [ht]
  obtain ⟨buffer, nextSeq, inner⟩ := t
  simp only at hend hempty hlast
  simp [hend, hempty, hlast]

end Run

end Reorder
