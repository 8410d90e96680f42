import Pbfhogg.Read.Elements

/-!
# The tags of dense nodes

`keys_vals` holds the tags of the dense nodes, node after node, with a zero between. The validator
counts the runs without keeping them, and the iterator cuts one off for each node.
-/

namespace TagRuns

open Protohoggr BlockScan BlockValid Elements Fallible Varint List

/-- The values of a list of tags, key and value in turn. -/
def flat (pairs : List (Nat × Nat)) : List Nat := pairs.flatMap fun p => [p.1, p.2]

/-- A tag in front of the first run. -/
def addPair (p : Nat × Nat) : List (List (Nat × Nat)) → List (List (Nat × Nat))
  | [] => [[p]]
  | run :: runs => (p :: run) :: runs

/-- `data` is the given runs of tags: a zero ends each of them but perhaps the last. -/
inductive IsRuns : Bytes → List (List (Nat × Nat)) → Prop
  | nil : IsRuns [] []
  | stop {data rest : Bytes} {runs : List (List (Nat × Nat))} :
      decode data = some (0, rest) → IsRuns rest runs → IsRuns data ([] :: runs)
  | pair {data cur rest : Bytes} {key val : Nat} {runs : List (List (Nat × Nat))} :
      decode data = some (key, cur) → key ≠ 0 → decode cur = some (val, rest) →
      IsRuns rest runs → IsRuns data (addPair (key, val) runs)

section Runs

variable {ph : Crate}

variable {data : Bytes} {runs : List (List (Nat × Nat))}

/-- The bytes of one varint. -/
theorem values_of_decode {rest : Bytes} {v : Nat} (h : decode data = some (v, rest)) :
    ∃ raw, data = raw ++ rest ∧ Values raw [v] := by
  obtain ⟨raw, -, rfl, hraw⟩ := decode_split h
  have hlast := hraw []
  rw [append_nil] at hlast
  exact ⟨raw, rfl, .cons hlast .nil⟩

/-- How many runs the validator has counted, the one it is in included. -/
def counted (runs : Nat) (inRun : Bool) : Nat := if inRun then runs + 1 else runs

lemma length_addPair (p : Nat × Nat) (runs : List (List (Nat × Nat))) :
    (addPair p runs).length = max 1 runs.length := by
  cases runs with
  | nil => rfl
  | cons run runs =>
    simp only [addPair, length_cons]
    omega

lemma forall_addPair {P : Nat × Nat → Prop} {p : Nat × Nat} (hp : P p)
    (hruns : ∀ run ∈ runs, ∀ q ∈ run, P q) : ∀ run ∈ addPair p runs, ∀ q ∈ run, P q := by
  cases runs with
  | nil =>
    intro run hrun q hq
    rw [addPair, mem_singleton] at hrun
    rw [hrun, mem_singleton] at hq
    rwa [hq]
  | cons run runs =>
    rw [forall_mem_cons] at hruns
    simp only [addPair, forall_mem_cons]
    exact ⟨⟨hp, hruns.1⟩, hruns.2⟩

/-- Both words of a tag fit a signed index. -/
def InIndex (p : Nat × Nat) : Prop := p.1 < 2 ^ 31 ∧ p.2 < 2 ^ 31

/-- What the validator's walk over the runs counts. -/
theorem tagRuns_of_keysValsFuel {fuel n : Nat} {inRun : Bool} {out : Nat × Bool}
    (hfuel : data.length ≤ fuel) (h : keysValsFuel ph fuel n inRun data = .ok out) :
    ∃ runs, IsRuns data runs ∧ (∀ run ∈ runs, ∀ p ∈ run, InIndex p) ∧
      counted out.1 out.2 = n + if inRun then max 1 runs.length else runs.length := by
  have hend : ∀ n inRun, ∃ runs, IsRuns [] runs ∧ (∀ run ∈ runs, ∀ p ∈ run, InIndex p) ∧
      counted n inRun = n + if inRun then max 1 runs.length else runs.length := by
    intro n inRun
    refine ⟨[], .nil, by simp, ?_⟩
    cases inRun <;> rfl
  induction fuel generalizing n inRun data with
  | zero =>
    have hnil : data = [] := length_eq_zero_iff.mp (by omega)
    subst hnil
    cases h
    exact hend n inRun
  | succ fuel ih =>
    cases data with
    | nil =>
      cases h
      exact hend n inRun
    | cons b bs =>
      rw [keysValsFuel] at h
      split at h
      · cases h
      · next key cur hkey =>
        have hcur := readVarint_shrinks hkey
        have hkey := ph.readVarint_ok.mp hkey
        split at h
        · cases h
        · next hkeylt =>
          split at h
          · next hzero =>
            subst hzero
            obtain ⟨runs, hruns, hin, hcount⟩ := ih (by omega) h
            refine ⟨[] :: runs, .stop hkey hruns, ?_, ?_⟩
            · simpa using hin
            · simp only [Bool.false_eq_true, if_false] at hcount
              rw [hcount, length_cons]
              split <;> omega
          · next hne =>
            split at h
            · cases h
            · split at h
              · cases h
              · next val rest hval =>
                have hrest := readVarint_shrinks hval
                have hval := ph.readVarint_ok.mp hval
                split at h
                · cases h
                · next hvallt =>
                  obtain ⟨runs, hruns, hin, hcount⟩ := ih (by omega) h
                  refine ⟨addPair (key, val) runs, .pair hkey hne hval hruns,
                    forall_addPair ⟨by omega, by omega⟩ hin, ?_⟩
                  rw [if_pos rfl] at hcount
                  rw [hcount, length_addPair]
                  split <;> omega

/-- The runs of a validated array: none of an empty one, one for each node of any other. -/
theorem tagRuns_of_validate {n : Nat} (h : validateDenseKeysVals ph data n = .ok ()) :
    ∃ runs, IsRuns data runs ∧ (∀ run ∈ runs, ∀ p ∈ run, InIndex p) ∧
      (data = [] ∨ runs.length = n) ∧ runs.length ≤ n := by
  unfold validateDenseKeysVals at h
  split at h
  · next hnil =>
    subst hnil
    exact ⟨[], .nil, by simp, .inl rfl, Nat.zero_le n⟩
  · obtain ⟨⟨total, inRun⟩, hout, hlast⟩ := bind_eq_ok.mp h
    obtain ⟨runs, hruns, hin, hcount⟩ := tagRuns_of_keysValsFuel (Nat.le_refl _) hout
    have hsame : counted total inRun = n := Decidable.not_not.mp (refuseIf_eq_ok.mp hlast)
    have hlength : runs.length = n := by
      rw [← hsame, hcount]
      simp
    exact ⟨runs, hruns, hin, .inr hlength, hlength.le⟩

/-- One turn of the dense iterator over `keys_vals`: it takes the first run. -/
theorem tagRunFuel_runs {fuel : Nat} {kv : Bytes} (h : IsRuns kv runs)
    (hfuel : kv.length ≤ fuel) :
    ∃ tags rest, tagRunFuel ph fuel kv = .ok (tags, rest) ∧ Values tags (flat (runs.headD [])) ∧
      IsRuns rest runs.tail := by
  induction h generalizing fuel with
  | nil =>
    refine ⟨[], [], ?_, .nil, .nil⟩
    cases fuel <;> rfl
  | @stop data rest runs hkey hruns _ =>
    have hlt := decode_length_lt hkey
    cases fuel with
    | zero => omega
    | succ fuel =>
      cases data with
      | nil => simp at hlt
      | cons b bs =>
        refine ⟨[], rest, ?_, .nil, hruns⟩
        rw [tagRunFuel, validated_ok (ph.readVarint_ok.mpr hkey)]
        rfl
  | @pair data cur rest key val runs hkey hne hval _ ih =>
    have hlt := decode_length_lt hkey
    have hlt' := decode_length_lt hval
    cases fuel with
    | zero => omega
    | succ fuel =>
      cases data with
      | nil => simp at hlt
      | cons b bs =>
        obtain ⟨tags, after, htags, hvalues, hafter⟩ := @ih fuel (by omega)
        have hread : tagRunFuel ph (fuel + 1) (b :: bs) =
            .ok ((b :: bs).take ((b :: bs).length - rest.length) ++ tags, after) := by
          simp only [tagRunFuel, validated_ok (ph.readVarint_ok.mpr hkey),
            validated_ok (ph.readVarint_ok.mpr hval), ok_bind, hne, if_false, htags]
          rfl
        obtain ⟨rawKey, hkeyraw, hkeyv⟩ := values_of_decode hkey
        obtain ⟨rawVal, hvalraw, hvalv⟩ := values_of_decode hval
        have htaken : (b :: bs).take ((b :: bs).length - rest.length) = rawKey ++ rawVal := by
          rw [hkeyraw, hvalraw, ← append_assoc]
          refine take_left' ?_
          simp only [length_append]
          omega
        refine ⟨_, after, hread, ?_, ?_⟩
        · rw [htaken, append_assoc]
          have hhead : flat ((addPair (key, val) runs).headD []) =
              [key] ++ ([val] ++ flat (runs.headD [])) := by
            cases runs <;> rfl
          rw [hhead]
          exact hkeyv.append (hvalv.append hvalues)
        · have htail : (addPair (key, val) runs).tail = runs.tail := by
            cases runs <;> rfl
          rw [htail]
          exact hafter

lemma denseNodesFrom_runs {fields : BlockFields} {s : DenseSums} {dids dlats dlons : List Int64}
    {infos : List DenseNodeInfo} {kv : Bytes} {nodes : List DenseNode}
    (hruns : IsRuns kv runs) (hlength : runs.length ≤ dids.length)
    (h : denseNodesFrom ph fields s dids dlats dlons infos kv = .ok nodes) :
    List.Forall₂ (fun n run => Values (DenseNode.tagBytes n) (flat run)) nodes
      (runs ++ replicate (dids.length - runs.length) []) := by
  induction dids generalizing s dlats dlons infos kv runs nodes with
  | nil =>
    rw [length_nil, Nat.le_zero, length_eq_zero_iff] at hlength
    subst hlength
    cases dlats <;> cases dlons <;> cases h
    exact .nil
  | cons did dids ih =>
    obtain ⟨_, _, _, _, tags, kv', rest, rfl, rfl, htags, hrest, rfl⟩ := denseNodesFrom_cons h
    obtain ⟨tags', kv'', htags', hvalues, hafter⟩ := tagRunFuel_runs hruns (Nat.le_refl _)
    rw [tagRun, htags'] at htags
    cases htags
    cases runs with
    | nil =>
      have hgo := ih hafter (Nat.zero_le _) hrest
      exact .cons hvalues hgo
    | cons run runs =>
      have hshort : runs.length ≤ dids.length := by simpa using hlength
      have hgo := ih hafter hshort hrest
      rw [length_cons, length_cons, Nat.add_sub_add_right, cons_append]
      exact .cons hvalues hgo

end Runs

end TagRuns
