import Mathlib.Data.List.Dedup
import Pbfhogg.TimeFilter.HistoryRuns

/-!
# Versions at a cutoff

The elements of an input that are the last of their object at or before a cutoff, in input order,
and what the objects closed by a run have to do with them.
-/

namespace Selection

open Content Owned TimeFilter HistoryRuns
open List hiding beq_eq_decide

variable {cutoff : Int64} {es : List Element}

/-- A later version of the same object is at or before the cutoff. -/
def superseded (cutoff : Int64) (e : Element) (es : List Element) : Bool :=
  es.any fun x => decide (key x = key e) && before cutoff x

/-- The last version of each object at or before the cutoff. -/
def latest (cutoff : Int64) : List Element → List Element
  | [] => []
  | e :: es =>
    if before cutoff e && !superseded cutoff e es then e :: latest cutoff es else latest cutoff es

/-- The visible ones among them. -/
def selected (cutoff : Int64) (es : List Element) : List Element :=
  (latest cutoff es).filter visible

/-- The objects of an input. -/
def objects (es : List Element) : List OrderKey := (es.map key).dedup

lemma latest_sublist (cutoff : Int64) (es : List Element) : (latest cutoff es).Sublist es := by
  induction es with
  | nil => exact .slnil
  | cons e es ih =>
    rw [latest]
    split
    · exact ih.cons_cons e
    · exact ih.cons e

lemma selected_sublist (cutoff : Int64) (es : List Element) : (selected cutoff es).Sublist es :=
  filter_sublist.trans (latest_sublist cutoff es)

lemma before_of_mem_latest {e : Element} (h : e ∈ latest cutoff es) : before cutoff e = true := by
  induction es with
  | nil => simp [latest] at h
  | cons x es ih =>
    rw [latest] at h
    split at h
    · next hx =>
      rcases mem_cons.mp h with rfl | h
      · exact (Bool.and_eq_true _ _ ▸ hx).1
      · exact ih h
    · exact ih h

lemma latest_filter_key (cutoff : Int64) (es : List Element) (k : OrderKey) :
    (latest cutoff es).filter (fun e => decide (key e = k)) =
      (es.filter fun e => decide (key e = k) && before cutoff e).getLast?.toList := by
  induction es with
  | nil => rfl
  | cons e es ih =>
    have hnone : superseded cutoff e es = false → key e = k →
        es.filter (fun x => decide (key x = k) && before cutoff x) = [] := by
      intro hsuper hkey
      rw [superseded, hkey, any_eq_false] at hsuper
      exact filter_eq_nil_iff.mpr hsuper
    have hsome : superseded cutoff e es = true → key e = k →
        es.filter (fun x => decide (key x = k) && before cutoff x) ≠ [] := by
      intro hsuper hkey hnil
      rw [superseded, hkey, any_eq_true] at hsuper
      obtain ⟨x, hx, hboth⟩ := hsuper
      exact filter_eq_nil_iff.mp hnil x hx hboth
    rw [latest]
    by_cases hkey : key e = k
    · cases hbefore : before cutoff e with
      | false => simp [hbefore, ih]
      | true =>
        cases hsuper : superseded cutoff e es with
        | false =>
          have hrest := hnone hsuper hkey
          rw [hrest] at ih
          simp [hkey, hbefore, ih, hrest]
        | true =>
          have hrest := hsome hsuper hkey
          have htaken : (e :: es).filter (fun x => decide (key x = k) && before cutoff x) =
              e :: es.filter fun x => decide (key x = k) && before cutoff x := by
            rw [filter_cons, if_pos (by simp [hkey, hbefore])]
          rw [htaken, getLast?_cons, getLast?_eq_some_getLast hrest]
          rw [getLast?_eq_some_getLast hrest] at ih
          simp only [Bool.not_true, Bool.and_false, Bool.false_eq_true, if_false]
          exact ih
    · have hskip : (e :: es).filter (fun x => decide (key x = k) && before cutoff x) =
          es.filter fun x => decide (key x = k) && before cutoff x := by
        rw [filter_cons, if_neg (by simp [hkey])]
      rw [hskip, ← ih]
      split
      · rw [filter_cons, if_neg (by simp [hkey])]
      · rfl

lemma selected_filter_key (cutoff : Int64) (es : List Element) (k : OrderKey) :
    (selected cutoff es).filter (fun e => decide (key e = k)) =
      ((es.filter fun e => decide (key e = k) && before cutoff e).getLast?.filter
        visible).toList := by
  rw [selected, filter_comm, latest_filter_key]
  cases (es.filter fun e => decide (key e = k) && before cutoff e).getLast? with
  | none => rfl
  | some e =>
    simp only [Option.toList_some, Option.filter_some, filter_cons, filter_nil]
    split <;> rfl

/-- Each object is selected at most once. -/
theorem nodup_selected (cutoff : Int64) (es : List Element) :
    ((selected cutoff es).map key).Nodup := by
  rw [nodup_iff_count_le_one]
  intro k
  have hcount : ((selected cutoff es).map key).count k =
      ((selected cutoff es).filter fun e => decide (key e = k)).length := by
    rw [count, countP_map, countP_eq_length_filter]
    exact congrArg length (filter_congr fun e _ => by simp [beq_eq_decide])
  rw [hcount, selected_filter_key]
  cases ((es.filter fun e => decide (key e = k) && before cutoff e).getLast?.filter visible) with
  | none => simp
  | some e => simp

/-- The keys do not go back. -/
def Sorted (es : List Element) : Prop := es.Pairwise fun a b => key a ≤ key b

lemma key_le_of_follows {a b : Element} (h : Follows a b) : key a ≤ key b := by
  rcases h with hlt | ⟨heq, -⟩
  · exact le_of_lt hlt
  · exact le_of_eq heq

lemma sorted_of_chain (h : es.IsChain Follows) : Sorted es := by
  have hchain : es.IsChain fun a b => key a ≤ key b := h.imp fun _ _ => key_le_of_follows
  have htrans : IsTrans Element fun a b => key a ≤ key b := ⟨fun _ _ _ => le_trans⟩
  exact isChain_iff_pairwise.mp hchain

lemma superseded_congr {a b : Element} (h : key a = key b) (es : List Element) :
    superseded cutoff a es = superseded cutoff b es := by
  rw [superseded, superseded, h]

lemma superseded_cons (cutoff : Int64) (p e : Element) (es : List Element) :
    superseded cutoff p (e :: es) =
      ((decide (key e = key p) && before cutoff e) || superseded cutoff p es) := rfl

/-- Past the last version of an object nothing supersedes it. -/
theorem not_superseded {p e : Element} (hsorted : Sorted (p :: e :: es)) (hne : key e ≠ key p) :
    superseded cutoff p (e :: es) = false := by
  obtain ⟨hp, hrest⟩ := pairwise_cons.mp hsorted
  obtain ⟨he, -⟩ := pairwise_cons.mp hrest
  have hlt : key p < key e := lt_of_le_of_ne (hp e (by simp)) (Ne.symm hne)
  rw [superseded, any_eq_false]
  intro x hx
  have hxe : key e ≤ key x := by
    rcases mem_cons.mp hx with rfl | hx
    · exact le_refl _
    · exact he x hx
  simp [ne_of_gt (lt_of_lt_of_le hlt hxe)]

/-- What is handed over is the pending version unless it is superseded, and the last versions of
the objects behind it. -/
theorem closings_reduce {p : Element} {l : Option OwnedElement} (hsorted : Sorted (p :: es)) :
    (closings cutoff p l es).reduceOption =
      (if superseded cutoff p es then [] else l.toList) ++ (latest cutoff es).filterMap owned := by
  induction es generalizing p l with
  | nil => cases l <;> simp [closings, superseded, latest, reduceOption]
  | cons e es ih =>
    have hrest : Sorted (e :: es) := (pairwise_cons.mp hsorted).2
    by_cases hsame : key e = key p
    · rw [closings, if_pos hsame, ih hrest, superseded_congr hsame, latest]
      rw [superseded_cons, superseded_congr hsame]
      cases hbefore : before cutoff e with
      | false => simp [hsame]
      | true =>
        cases hsuper : superseded cutoff p es with
        | true => simp [hsame]
        | false =>
          cases howned : owned e <;> simp [hsame, howned]
    · rw [closings, if_neg hsame, not_superseded hsorted hsame, latest]
      have hcons : (l :: closings cutoff e (if before cutoff e then owned e else none)
          es).reduceOption = l.toList ++ (closings cutoff e
            (if before cutoff e then owned e else none) es).reduceOption := by
        cases l <;> simp [reduceOption_cons_of_some, reduceOption_cons_of_none]
      rw [hcons, ih hrest]
      cases hbefore : before cutoff e with
      | false => simp
      | true =>
        cases hsuper : superseded cutoff e es with
        | true => simp
        | false => cases howned : owned e <;> simp [howned]

lemma length_closings {p : Element} {l : Option OwnedElement} (hsorted : Sorted (p :: es)) :
    (closings cutoff p l es).length = (objects (p :: es)).length := by
  induction es generalizing p l with
  | nil => rfl
  | cons e es ih =>
    have hrest : Sorted (e :: es) := (pairwise_cons.mp hsorted).2
    by_cases hsame : key e = key p
    · rw [closings, if_pos hsame, ih hrest]
      rw [objects, objects, map_cons, map_cons, map_cons, hsame, dedup_cons_of_mem mem_cons_self]
    · have hfresh : key p ∉ (e :: es).map key := by
        intro hmem
        obtain ⟨x, hx, hkey⟩ := mem_map.mp hmem
        obtain ⟨hp, hes⟩ := pairwise_cons.mp hsorted
        have hlt : key p < key e := lt_of_le_of_ne (hp e (by simp)) (Ne.symm hsame)
        have hex : key e ≤ key x := by
          rcases mem_cons.mp hx with rfl | hx
          · exact le_refl _
          · exact (pairwise_cons.mp hes).1 x hx
        exact absurd hkey (ne_of_gt (lt_of_lt_of_le hlt hex))
      have hobjects : objects (p :: e :: es) = key p :: objects (e :: es) :=
        dedup_cons_of_notMem hfresh
      rw [closings, if_neg hsame, length_cons, ih hrest, hobjects, length_cons]

/-- What the objects of a sorted input hand over. -/
theorem closed_reduce (hsorted : Sorted es) :
    (closed cutoff es).reduceOption = (latest cutoff es).filterMap owned := by
  cases es with
  | nil => rfl
  | cons e es =>
    rw [closed, closings_reduce hsorted, latest]
    cases hbefore : before cutoff e with
    | false => simp
    | true =>
      cases hsuper : superseded cutoff e es with
      | true => simp
      | false => cases howned : owned e <;> simp [howned]

lemma length_closed {cutoff : Int64} {es : List Element} (hsorted : Sorted es) :
    (closed cutoff es).length = (objects es).length := by
  cases es with
  | nil => rfl
  | cons e es => exact length_closings hsorted

end Selection
