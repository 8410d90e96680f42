import Mathlib.Algebra.GroupWithZero.Nat
import Mathlib.Data.List.Nodup
import Mathlib.Data.List.Perm.Basic
import Mathlib.Data.List.Range

/-!
# A pool of workers over shared objects

A job asks shared objects questions with a yes-or-no answer and returns a result or fails. Workers
take the jobs of a list in order, their questions interleave, and one consumer merges the results. A
finished phase is described by one answered trace for each job and one order of the results.
-/

namespace SharedPool

open List Function

/-- A job: ask a question and go on with its answer, return or fail. -/
inductive Job (Op E α : Type) where
  | ret (r : α)
  | fail (e : E)
  | ask (o : Op) (k : Bool → Job Op E α)

namespace Job

variable {Op E α β : Type}

def bind : Job Op E α → (α → Job Op E β) → Job Op E β
  | ret r, f => f r
  | fail e, _ => fail e
  | ask o k, f => ask o fun b => (k b).bind f

instance : Monad (Job Op E) where
  pure := ret
  bind := bind

@[simp] lemma ret_bind (r : α) (f : α → Job Op E β) : (ret r : Job Op E α) >>= f = f r := rfl

@[simp] lemma fail_bind (e : E) (f : α → Job Op E β) :
    (fail e : Job Op E α) >>= f = fail e := rfl

@[simp] lemma ask_bind (o : Op) (k : Bool → Job Op E α) (f : α → Job Op E β) :
    ask o k >>= f = ask o fun b => k b >>= f := rfl

@[simp] lemma pure_def (r : α) : (pure r : Job Op E α) = ret r := rfl

/-- Ask one question. -/
def query (o : Op) : Job Op E Bool := ask o ret

/-- `After j t j'`: answered as in `t`, the job `j` goes on as `j'`. -/
inductive After : Job Op E α → List (Op × Bool) → Job Op E α → Prop where
  | refl (j : Job Op E α) : After j [] j
  | ask {o : Op} {k : Bool → Job Op E α} {b : Bool} {t : List (Op × Bool)} {j : Job Op E α}
      (h : After (k b) t j) : After (.ask o k) ((o, b) :: t) j

variable {j : Job Op E α} {t : List (Op × Bool)} {P : Op → Prop}
  {post : List (Op × Bool) → α → Prop}

/-- One more answer. -/
theorem After.snoc {o : Op} {k : Bool → Job Op E α} (h : After j t (.ask o k)) (b : Bool) :
    After j (t ++ [(o, b)]) (k b) := by
  generalize hj : Job.ask o k = j' at h
  induction h with
  | refl j =>
    subst hj
    exact .ask (.refl _)
  | ask _ ih => exact .ask (ih hj)

lemma after_ret {r : α} (h : After (ret r) t j) : t = [] ∧ j = ret r := by
  cases h
  exact ⟨rfl, rfl⟩

lemma after_fail {e : E} (h : After (fail e) t j) : t = [] ∧ j = fail e := by
  cases h
  exact ⟨rfl, rfl⟩

/-- How many questions a job may still ask. -/
def size : Job Op E α → Nat
  | ret _ => 0
  | fail _ => 0
  | ask _ k => max (k true).size (k false).size + 1

lemma size_lt (o : Op) (k : Bool → Job Op E α) (b : Bool) : (k b).size < (ask o k).size := by
  cases b <;> simp only [size] <;> omega

/-- Every question the job can come to ask is one of `P`. -/
def Asks (P : Op → Prop) : Job Op E α → Prop
  | ret _ => True
  | fail _ => True
  | ask o k => P o ∧ ∀ b, (k b).Asks P

lemma asks_bind {f : α → Job Op E β} (hj : j.Asks P) (hf : ∀ r, (f r).Asks P) :
    (j >>= f).Asks P := by
  induction j with
  | ret r => exact hf r
  | fail e => exact trivial
  | ask o k ih => exact ⟨hj.1, fun b => ih b (hj.2 b)⟩

lemma asks_foldlM {γ : Type} {f : β → γ → Job Op E β} {cs : List γ}
    (h : ∀ c ∈ cs, ∀ acc, (f acc c).Asks P) (init : β) : (cs.foldlM f init).Asks P := by
  induction cs generalizing init with
  | nil => exact trivial
  | cons c cs ih =>
    rw [foldlM_cons]
    refine asks_bind (h c mem_cons_self init) fun acc => ?_
    exact ih (fun x hx => h x (mem_cons_of_mem _ hx)) acc

lemma asks_any (h : ∀ o, P o) (j : Job Op E α) : j.Asks P := by
  induction j with
  | ret r => exact trivial
  | fail e => exact trivial
  | ask o k ih => exact ⟨h o, ih⟩

lemma After.asks {j' : Job Op E α} (h : After j t j') (hj : j.Asks P) : ∀ x ∈ t, P x.1 := by
  induction h with
  | refl => simp
  | ask _ ih =>
    intro x hx
    rcases mem_cons.mp hx with rfl | hx
    · exact hj.1
    · exact ih (hj.2 _) x hx

variable (Q : Op → Bool → Prop)

/-- Whatever answers within `Q` the job gets, it returns, with `post` of its trace and result. -/
def Ensures (j : Job Op E α) (post : List (Op × Bool) → α → Prop) : Prop :=
  ∀ t j', After j t j' → (∀ x ∈ t, Q x.1 x.2) →
    (∀ r, j' = ret r → post t r) ∧ ∀ e, j' ≠ fail e

variable {Q}

lemma ensures_ret {r : α} (h : post [] r) : Ensures Q (ret r : Job Op E α) post := by
  intro t j' hafter _
  obtain ⟨rfl, rfl⟩ := after_ret hafter
  constructor
  · intro r' hr
    cases hr
    exact h
  · intro e he
    cases he

lemma ensures_ask {o : Op} {k : Bool → Job Op E α}
    (h : ∀ b, Q o b → Ensures Q (k b) fun t r => post ((o, b) :: t) r) :
    Ensures Q (ask o k) post := by
  intro t j' hafter hQ
  cases hafter with
  | refl =>
    constructor
    · intro r hr
      cases hr
    · intro e he
      cases he
  | ask hrest =>
    rename_i b t
    have hob := hQ (o, b) mem_cons_self
    exact h b hob t j' hrest fun x hx => hQ x (mem_cons_of_mem _ hx)

lemma Ensures.imp {post' : List (Op × Bool) → α → Prop} (h : Ensures Q j post)
    (himp : ∀ t r, post t r → post' t r) : Ensures Q j post' := by
  intro t j' hafter hQ
  obtain ⟨hret, hfail⟩ := h t j' hafter hQ
  exact ⟨fun r hr => himp t r (hret r hr), hfail⟩

/-- The rule of composition. -/
theorem ensures_bind {f : α → Job Op E β} {mid : List (Op × Bool) → α → Prop}
    {post : List (Op × Bool) → β → Prop} (hj : Ensures Q j mid)
    (hf : ∀ t r, mid t r → Ensures Q (f r) fun t' r' => post (t ++ t') r') :
    Ensures Q (j >>= f) post := by
  induction j generalizing mid post with
  | ret r =>
    have hmid : mid [] r := (hj [] (ret r) (.refl _) (by simp)).1 r rfl
    have hrest := hf [] r hmid
    simpa using hrest
  | fail e => exact absurd rfl ((hj [] (fail e) (.refl _) (by simp)).2 e)
  | ask o k ih =>
    rw [ask_bind]
    refine ensures_ask fun b hb => ?_
    have hkb : Ensures Q (k b) fun t r => mid ((o, b) :: t) r := by
      intro t j' hafter hQ
      have hall : ∀ x ∈ (o, b) :: t, Q x.1 x.2 := by
        intro x hx
        rcases mem_cons.mp hx with rfl | hx
        · exact hb
        · exact hQ x hx
      exact hj _ j' (.ask hafter) hall
    refine ih b hkb fun t r hmid => ?_
    simpa using hf ((o, b) :: t) r hmid

/-- The rule of a loop over a list: `inv` of the items done, of the trace and of the value. -/
theorem ensures_foldlM {γ : Type} {f : β → γ → Job Op E β}
    {inv : List γ → List (Op × Bool) → β → Prop} {cs : List γ} {init : β} (hinit : inv [] [] init)
    (hstep : ∀ (done : List γ) (c : γ), c ∈ cs → ∀ t acc, inv done t acc →
      Ensures Q (f acc c) fun t' acc' => inv (done ++ [c]) (t ++ t') acc') :
    Ensures Q (cs.foldlM f init) (inv cs) := by
  have hgen : ∀ (rest done : List γ) t acc, (∀ c ∈ rest, c ∈ cs) → inv done t acc →
      Ensures Q (rest.foldlM f acc) fun t' acc' => inv (done ++ rest) (t ++ t') acc' := by
    intro rest
    induction rest with
    | nil =>
      intro done t acc _ hinv
      exact ensures_ret (by simpa using hinv)
    | cons c rest ih =>
      intro done t acc hmem hinv
      rw [foldlM_cons]
      refine ensures_bind (hstep done c (hmem c mem_cons_self) t acc hinv) ?_
      intro t' acc' hinv'
      have := ih (done ++ [c]) (t ++ t') acc'
        (fun x hx => hmem x (mem_cons_of_mem _ hx)) hinv'
      simpa using this
  have := hgen cs [] [] init (fun _ h => h) hinit
  simpa using this

end Job

variable {S Op E R A : Type}

/-- A shared object: which answers a question may get, and the state after it. -/
structure Shared (S Op : Type) where
  step : S → Op → Bool → S → Prop
  total : ∀ s o, ∃ b s', step s o b s'

/-- `Exec sh s h s'`: the questions of `h`, answered in that order, lead from `s` to `s'`. -/
inductive Exec (sh : Shared S Op) : S → List (Op × Bool) → S → Prop where
  | refl (s : S) : Exec sh s [] s
  | snoc {s s' s'' : S} {h : List (Op × Bool)} {o : Op} {b : Bool} (hrun : Exec sh s h s')
      (hstep : sh.step s' o b s'') : Exec sh s (h ++ [(o, b)]) s''

/-- The phase: the jobs not yet taken, those the workers are at, the results on their way to the
consumer and what it has merged. A job goes with its position in the schedule. -/
structure Phase (S Op E R A : Type) where
  shared : S
  todo : List (Nat × Job Op E R)
  busy : List (Nat × Job Op E R)
  sent : List (Nat × R)
  acc : A

namespace Phase

variable (sh : Shared S Op) (workers : Nat) (merge : A → Nat × R → A)

inductive Step : Phase S Op E R A → Phase S Op E R A → Prop where
  | take {s : S} {x : Nat × Job Op E R} {todo busy : List (Nat × Job Op E R)} {sent : List (Nat × R)}
      {acc : A} (hroom : busy.length < workers) :
      Step ⟨s, x :: todo, busy, sent, acc⟩ ⟨s, todo, x :: busy, sent, acc⟩
  | ask {s s' : S} {todo before after : List (Nat × Job Op E R)} {sent : List (Nat × R)} {acc : A}
      {i : Nat} {o : Op} {k : Bool → Job Op E R} {b : Bool} (hstep : sh.step s o b s') :
      Step ⟨s, todo, before ++ (i, .ask o k) :: after, sent, acc⟩
        ⟨s', todo, before ++ (i, k b) :: after, sent, acc⟩
  | send {s : S} {todo before after : List (Nat × Job Op E R)} {sent : List (Nat × R)} {acc : A}
      {i : Nat} {r : R} :
      Step ⟨s, todo, before ++ (i, .ret r) :: after, sent, acc⟩
        ⟨s, todo, before ++ after, sent ++ [(i, r)], acc⟩
  | merge {s : S} {todo busy : List (Nat × Job Op E R)} {x : Nat × R} {sent : List (Nat × R)}
      {acc : A} :
      Step ⟨s, todo, busy, x :: sent, acc⟩ ⟨s, todo, busy, sent, merge acc x⟩

/-- The jobs of a schedule with their positions. -/
def numbered (jobs : List (Job Op E R)) : List (Nat × Job Op E R) :=
  jobs.zipIdx.map fun x => (x.2, x.1)

def start (s : S) (acc : A) (jobs : List (Job Op E R)) : Phase S Op E R A where
  shared := s
  todo := numbered jobs
  busy := []
  sent := []
  acc := acc

def Reach : Phase S Op E R A → Phase S Op E R A → Prop :=
  Relation.ReflTransGen (Step sh workers merge)

def Finished (p : Phase S Op E R A) : Prop := p.todo = [] ∧ p.busy = [] ∧ p.sent = []

def Failed (p : Phase S Op E R A) (e : E) : Prop := ∃ i, (i, Job.fail e) ∈ p.busy

/-- What a phase can end with: the shared objects and what was merged, or a job's error. -/
inductive Outcome (s : S) (acc : A) (jobs : List (Job Op E R)) : Except E (S × A) → Prop where
  | ok {p : Phase S Op E R A} (hrun : Reach sh workers merge (start s acc jobs) p)
      (hfin : p.Finished) : Outcome s acc jobs (.ok (p.shared, p.acc))
  | error {p : Phase S Op E R A} {e : E} (hrun : Reach sh workers merge (start s acc jobs) p)
      (hfail : p.Failed e) : Outcome s acc jobs (.error e)

def weight (p : Phase S Op E R A) : Nat :=
  (p.todo.map fun x => x.2.size + 3).sum + (p.busy.map fun x => x.2.size + 2).sum + p.sent.length

variable {sh workers merge}

lemma weight_lt {p q : Phase S Op E R A} (h : Step sh workers merge p q) : q.weight < p.weight := by
  cases h with
  | take =>
    simp only [weight, map_cons, sum_cons]
    omega
  | ask =>
    rename_i o k b _
    have := Job.size_lt o k b
    simp only [weight, map_append, map_cons, sum_append, sum_cons]
    omega
  | send =>
    simp only [weight, map_append, map_cons, sum_append, sum_cons, length_append, length_singleton]
    omega
  | merge =>
    simp only [weight, length_cons]
    omega

/-- A phase that has neither finished nor failed goes on. -/
theorem progress (hw : 0 < workers) (p : Phase S Op E R A) :
    p.Finished ∨ (∃ e, p.Failed e) ∨ ∃ q, Step sh workers merge p q := by
  obtain ⟨s, todo, busy, sent, acc⟩ := p
  cases sent with
  | cons x sent => exact .inr (.inr ⟨_, .merge⟩)
  | nil =>
    cases busy with
    | cons x busy =>
      obtain ⟨i, j⟩ := x
      cases j with
      | ret r => exact .inr (.inr ⟨_, @Step.send S Op E R A sh workers merge s todo [] busy [] acc i r⟩)
      | fail e => exact .inr (.inl ⟨e, i, mem_cons_self⟩)
      | ask o k =>
        obtain ⟨b, s', hstep⟩ := sh.total s o
        exact .inr (.inr
          ⟨_, @Step.ask S Op E R A sh workers merge s s' todo [] busy [] acc i o k b hstep⟩)
    | nil =>
      cases todo with
      | nil => exact .inl ⟨rfl, rfl, rfl⟩
      | cons x todo => exact .inr (.inr ⟨_, .take (by simpa using hw)⟩)

lemma exists_end (hw : 0 < workers) (p : Phase S Op E R A) :
    ∃ q, Reach sh workers merge p q ∧ (q.Finished ∨ ∃ e, q.Failed e) := by
  induction hn : p.weight using Nat.strongRecOn generalizing p with
  | ind n ih =>
    rcases @progress S Op E R A sh workers merge hw p with hfin | hfail | ⟨q, hstep⟩
    · exact ⟨p, .refl, .inl hfin⟩
    · exact ⟨p, .refl, .inr hfail⟩
    · obtain ⟨r, hrun, hend⟩ := ih q.weight (hn ▸ weight_lt hstep) q rfl
      exact ⟨r, .head hstep hrun, hend⟩

lemma exists_outcome (hw : 0 < workers) (s : S) (acc : A) (jobs : List (Job Op E R)) :
    ∃ r, Outcome sh workers merge s acc jobs r := by
  obtain ⟨q, hrun, hfin | ⟨e, hfail⟩⟩ :=
    @exists_end S Op E R A sh workers merge hw (start s acc jobs)
  · exact ⟨_, .ok hrun hfin⟩
  · exact ⟨_, .error hrun hfail⟩

/-- One trace grows by an entry. -/
theorem flatMap_update {α : Type} {n i : Nat} (hi : i < n) (f : Nat → List α) (x : α) :
    ((range n).flatMap (update f i (f i ++ [x]))).Perm ((range n).flatMap f ++ [x]) := by
  obtain ⟨before, after, hsplit⟩ := append_of_mem (mem_range.mpr hi)
  have hnodup : (before ++ i :: after).Nodup := hsplit ▸ nodup_range
  have hself := nodup_cons.mp (perm_middle.nodup_iff.mp hnodup)
  have hother : ∀ l : List Nat, (∀ j ∈ l, j ∈ before ++ after) →
      l.flatMap (update f i (f i ++ [x])) = l.flatMap f := by
    intro l hl
    refine flatMap_congr fun j hj => ?_
    refine update_of_ne ?_ _ _
    rintro rfl
    exact hself.1 (hl j hj)
  rw [hsplit, flatMap_append, flatMap_cons, flatMap_append, flatMap_cons,
    hother before fun _ hj => mem_append_left _ hj,
    hother after fun _ hj => mem_append_right _ hj, update_self]
  simp only [append_assoc]
  refine List.Perm.append_left _ (List.Perm.append_left _ ?_)
  exact perm_append_comm

/-- The account of a phase: the history of the shared objects, the trace of each job and the order
in which the results were merged. -/
structure Account (s : S) (acc : A) (jobs : List (Job Op E R)) (p : Phase S Op E R A)
    (history : List (Op × Bool)) (trace : Nat → List (Op × Bool)) (merged : List (Nat × R)) :
    Prop where
  exec : Exec sh s history p.shared
  perm_history : history.Perm ((range jobs.length).flatMap trace)
  acc_eq : p.acc = merged.foldl merge acc
  places : (merged.map Prod.fst ++ p.sent.map Prod.fst ++ p.busy.map Prod.fst ++
    p.todo.map Prod.fst).Perm (range jobs.length)
  todo_job : ∀ x ∈ p.todo, jobs[x.1]? = some x.2 ∧ trace x.1 = []
  busy_job : ∀ x ∈ p.busy, ∃ j, jobs[x.1]? = some j ∧ j.After (trace x.1) x.2
  sent_job : ∀ x ∈ merged ++ p.sent, ∃ j, jobs[x.1]? = some j ∧ j.After (trace x.1) (.ret x.2)
  beyond : ∀ i, jobs.length ≤ i → trace i = []

lemma account_start (s : S) (acc : A) (jobs : List (Job Op E R)) :
    @Account S Op E R A sh merge s acc jobs (start s acc jobs) [] (fun _ => []) [] where
  exec := .refl s
  perm_history := by simp
  acc_eq := rfl
  places := by
    have : (numbered jobs).map Prod.fst = range jobs.length := by
      rw [numbered, map_map, range_eq_range', ← zipIdx_map_snd 0 jobs]
      rfl
    simp [start, this]
  todo_job := by
    intro x hx
    obtain ⟨y, hy, rfl⟩ := mem_map.mp hx
    exact ⟨mem_zipIdx_iff_getElem?.mp hy, rfl⟩
  busy_job := by simp [start]
  sent_job := by simp [start]
  beyond := by simp

section Places

variable {s : S} {acc : A} {jobs : List (Job Op E R)} {p : Phase S Op E R A}
  {history : List (Op × Bool)} {trace : Nat → List (Op × Bool)} {merged : List (Nat × R)}

lemma Account.mem_history (h : @Account S Op E R A sh merge s acc jobs p history trace merged)
    (x : Op × Bool) : x ∈ history ↔ ∃ i, x ∈ trace i := by
  rw [h.perm_history.mem_iff, mem_flatMap]
  constructor
  · rintro ⟨i, -, hi⟩
    exact ⟨i, hi⟩
  · rintro ⟨i, hi⟩
    refine ⟨i, mem_range.mpr ?_, hi⟩
    by_contra hge
    rw [h.beyond i (by omega)] at hi
    cases hi

/-- No position is at two places. -/
theorem Account.nodup (h : @Account S Op E R A sh merge s acc jobs p history trace merged) :
    (merged.map Prod.fst ++ p.sent.map Prod.fst ++ p.busy.map Prod.fst ++
      p.todo.map Prod.fst).Nodup :=
  h.places.nodup_iff.mpr nodup_range

lemma Account.lt_of_mem (h : @Account S Op E R A sh merge s acc jobs p history trace merged)
    {i : Nat} (hi : i ∈ p.busy.map Prod.fst) : i < jobs.length := by
  have hmem : i ∈ range jobs.length := h.places.mem_iff.mp (by simp [hi])
  exact mem_range.mp hmem

end Places

variable {jobs : List (Job Op E R)}

lemma account_ask {s : S} {acc : A} {s' s'' : S} {todo before after : List (Nat × Job Op E R)}
    {sent : List (Nat × R)} {a : A} {i : Nat} {o : Op} {k : Bool → Job Op E R} {b : Bool}
    {history : List (Op × Bool)} {trace : Nat → List (Op × Bool)} {merged : List (Nat × R)}
    (h : @Account S Op E R A sh merge s acc jobs
      ⟨s', todo, before ++ (i, .ask o k) :: after, sent, a⟩ history trace merged)
    (hstep : sh.step s' o b s'') :
    @Account S Op E R A sh merge s acc jobs ⟨s'', todo, before ++ (i, k b) :: after, sent, a⟩
      (history ++ [(o, b)]) (update trace i (trace i ++ [(o, b)])) merged := by
  have hnodup := h.nodup
  have hlt : i < jobs.length := h.lt_of_mem (by simp)
  have hother : ∀ n, n ≠ i → update trace i (trace i ++ [(o, b)]) n = trace n :=
    fun n hn => update_of_ne hn _ _
  simp only [map_append, map_cons] at hnodup
  refine ⟨.snoc h.exec hstep, ?_, h.acc_eq, by simpa using h.places, ?_, ?_, ?_, ?_⟩
  · exact (h.perm_history.append_right _).trans (flatMap_update hlt trace (o, b)).symm
  · intro x hx
    have hne : x.1 ≠ i := by
      rintro rfl
      have hmem : x.1 ∈ todo.map Prod.fst := mem_map_of_mem hx
      exact (nodup_append.mp hnodup).2.2 x.1 (by simp) x.1 hmem rfl
    rw [hother _ hne]
    exact h.todo_job x hx
  · have hbusy := (nodup_append.mp (nodup_append.mp hnodup).1).2.1
    have hself := perm_middle.nodup_iff.mp hbusy
    have hne : ∀ x ∈ before ++ after, x.1 ≠ i := by
      rintro x hx rfl
      refine (nodup_cons.mp hself).1 ?_
      rw [← map_append]
      exact mem_map_of_mem hx
    intro x hx
    rcases mem_append.mp hx with hx | hx
    · rw [hother _ (hne x (mem_append_left _ hx))]
      exact h.busy_job x (mem_append_left _ hx)
    · rcases mem_cons.mp hx with rfl | hx
      · obtain ⟨j, hj, hafter⟩ := h.busy_job (i, .ask o k) (by simp)
        exact ⟨j, hj, by simpa using hafter.snoc b⟩
      · rw [hother _ (hne x (mem_append_right _ hx))]
        exact h.busy_job x (by simp [hx])
  · intro x hx
    have hne : x.1 ≠ i := by
      rintro rfl
      have hmem : x.1 ∈ merged.map Prod.fst ++ sent.map Prod.fst := by
        rw [← map_append]
        exact mem_map_of_mem hx
      exact (nodup_append.mp (nodup_append.mp hnodup).1).2.2 x.1 hmem x.1 (by simp) rfl
    rw [hother _ hne]
    exact h.sent_job x hx
  · intro n hn
    rw [hother n (by omega)]
    exact h.beyond n hn

lemma account_step {s : S} {acc : A} {p q : Phase S Op E R A} {history : List (Op × Bool)}
    {trace : Nat → List (Op × Bool)} {merged : List (Nat × R)}
    (h : @Account S Op E R A sh merge s acc jobs p history trace merged)
    (hstep : Step sh workers merge p q) : ∃ history' trace' merged',
      @Account S Op E R A sh merge s acc jobs q history' trace' merged' := by
  cases hstep with
  | take =>
    rename_i s' x todo busy sent a _
    refine ⟨history, trace, merged, h.exec, h.perm_history, h.acc_eq, ?_, ?_, ?_, h.sent_job,
      h.beyond⟩
    · refine List.Perm.trans ?_ h.places
      simp only [map_cons, append_assoc, cons_append]
      refine List.Perm.append_left _ (List.Perm.append_left _ ?_)
      exact perm_middle.symm
    · exact fun y hy => h.todo_job y (mem_cons_of_mem _ hy)
    · intro y hy
      rcases mem_cons.mp hy with rfl | hy
      · obtain ⟨hj, ht⟩ := h.todo_job y mem_cons_self
        exact ⟨y.2, hj, ht ▸ .refl _⟩
      · exact h.busy_job y hy
  | ask hs => exact ⟨_, _, _, account_ask h hs⟩
  | send =>
    rename_i s' todo before after sent a i r
    refine ⟨history, trace, merged, h.exec, h.perm_history, h.acc_eq, ?_, h.todo_job, ?_, ?_,
      h.beyond⟩
    · refine List.Perm.trans ?_ h.places
      simp only [map_append, map_cons, map_nil, append_assoc, cons_append, nil_append]
      refine List.Perm.append_left _ (List.Perm.append_left _ ?_)
      exact perm_middle.symm
    · intro x hx
      rcases mem_append.mp hx with hx | hx
      · exact h.busy_job x (mem_append_left _ hx)
      · exact h.busy_job x (by simp [hx])
    · intro x hx
      simp only [mem_append, mem_singleton] at hx
      rcases hx with hx | hx | rfl
      · exact h.sent_job x (mem_append_left _ hx)
      · exact h.sent_job x (mem_append_right _ hx)
      · exact h.busy_job (i, .ret r) (by simp)
  | merge =>
    rename_i s' todo busy x sent a
    refine ⟨history, trace, merged ++ [x], h.exec, h.perm_history, ?_, ?_, h.todo_job, h.busy_job,
      ?_, h.beyond⟩
    · rw [foldl_concat, ← h.acc_eq]
    · simpa using h.places
    · simpa using h.sent_job

lemma account_of_reach {s : S} {acc : A} {p : Phase S Op E R A}
    (h : Reach sh workers merge (start s acc jobs) p) : ∃ history trace merged,
      @Account S Op E R A sh merge s acc jobs p history trace merged := by
  induction h with
  | refl => exact ⟨_, _, _, account_start s acc jobs⟩
  | tail _ hstep ih =>
    obtain ⟨_, _, _, h⟩ := ih
    exact account_step h hstep

/-- What a phase does, from what its jobs ask (`P`), what the shared objects then answer (`Q`) and
what each job ensures of its trace and result. -/
theorem outcome_account {s : S} {acc : A} {r : Except E (S × A)} {P : Op → Prop}
    {Q : Op → Bool → Prop} {post : Nat → List (Op × Bool) → R → Prop}
    (h : Outcome sh workers merge s acc jobs r) (hasks : ∀ j ∈ jobs, j.Asks P)
    (hQ : ∀ history s', Exec sh s history s' → (∀ x ∈ history, P x.1) → ∀ x ∈ history, Q x.1 x.2)
    (hjobs : ∀ (i : Nat) j, jobs[i]? = some j → j.Ensures Q (post i)) :
    ∃ (s' : S) (history : List (Op × Bool)) (trace : Nat → List (Op × Bool))
      (merged : List (Nat × R)), r = .ok (s', merged.foldl merge acc) ∧ Exec sh s history s' ∧
      (∀ x ∈ history, P x.1) ∧ history.Perm ((range jobs.length).flatMap trace) ∧
      (merged.map Prod.fst).Perm (range jobs.length) ∧ ∀ x ∈ merged, post x.1 (trace x.1) x.2 := by
  have hhistory : ∀ p history trace merged,
      @Account S Op E R A sh merge s acc jobs p history trace merged →
        ∀ x ∈ history, P x.1 := by
    intro p history trace merged hacc x hx
    obtain ⟨i, hi⟩ := (hacc.mem_history x).mp hx
    have hlt : i < jobs.length := by
      by_contra hge
      rw [hacc.beyond i (by omega)] at hi
      cases hi
    have hplace : i ∈ merged.map Prod.fst ++ p.sent.map Prod.fst ++ p.busy.map Prod.fst ++
        p.todo.map Prod.fst := hacc.places.mem_iff.mpr (mem_range.mpr hlt)
    rw [← map_append, mem_append, mem_append] at hplace
    rcases hplace with (hsent | hbusy) | htodo
    · obtain ⟨y, hy, rfl⟩ := mem_map.mp hsent
      obtain ⟨j, hj, hafter⟩ := hacc.sent_job y hy
      exact hafter.asks (hasks j (mem_of_getElem? hj)) x hi
    · obtain ⟨y, hy, rfl⟩ := mem_map.mp hbusy
      obtain ⟨j, hj, hafter⟩ := hacc.busy_job y hy
      exact hafter.asks (hasks j (mem_of_getElem? hj)) x hi
    · obtain ⟨y, hy, rfl⟩ := mem_map.mp htodo
      rw [(hacc.todo_job y hy).2] at hi
      cases hi
  have htrace : ∀ p history trace merged,
      @Account S Op E R A sh merge s acc jobs p history trace merged →
        ∀ i, ∀ x ∈ trace i, Q x.1 x.2 := by
    intro p history trace merged hacc i x hx
    exact hQ history p.shared hacc.exec (hhistory p history trace merged hacc) x
      ((hacc.mem_history x).mpr ⟨i, hx⟩)
  cases h with
  | error hrun hfail =>
    obtain ⟨i, hi⟩ := hfail
    obtain ⟨history, trace, merged, hacc⟩ := account_of_reach hrun
    obtain ⟨j, hj, hafter⟩ := hacc.busy_job _ hi
    exact absurd rfl ((hjobs i j hj _ _ hafter (htrace _ _ _ _ hacc i)).2 _)
  | ok hrun hfin =>
    rename_i p
    obtain ⟨history, trace, merged, hacc⟩ := account_of_reach hrun
    obtain ⟨htodo, hbusy, hsent⟩ := hfin
    refine ⟨p.shared, history, trace, merged, by rw [hacc.acc_eq], hacc.exec,
      hhistory _ _ _ _ hacc, hacc.perm_history, ?_, ?_⟩
    · simpa [htodo, hbusy, hsent] using hacc.places
    · intro x hx
      obtain ⟨j, hj, hafter⟩ := hacc.sent_job x (mem_append_left _ hx)
      exact (hjobs x.1 j hj _ _ hafter (htrace _ _ _ _ hacc x.1)).1 _ rfl

/-- A phase with a job that fails at once does not finish. -/
theorem not_ok_of_fail {s : S} {acc : A} {out : S × A} {e : E} (he : Job.fail e ∈ jobs) :
    ¬ Outcome sh workers merge s acc jobs (.ok out) := by
  intro h
  cases h with
  | ok hrun hfin =>
    obtain ⟨history, trace, merged, hacc⟩ := account_of_reach hrun
    obtain ⟨htodo, hbusy, hsent⟩ := hfin
    obtain ⟨i, hi⟩ := mem_iff_getElem?.mp he
    have hlt : i < jobs.length := (List.getElem?_eq_some_iff.mp hi).1
    have hplace : i ∈ merged.map Prod.fst := by
      have := hacc.places.mem_iff.mpr (mem_range.mpr hlt)
      simpa [htodo, hbusy, hsent] using this
    obtain ⟨x, hx, rfl⟩ := mem_map.mp hplace
    obtain ⟨j, hj, hafter⟩ := hacc.sent_job x (mem_append_left _ hx)
    cases hi.symm.trans hj
    cases (Job.after_fail hafter).2

end Phase

end SharedPool
