import Mathlib.Data.List.Range

/-!
# The feed of schedule positions

What two pools of `scan/classify.rs` share: one dispatcher sends the positions of a schedule in
order through a bounded channel, whose receiver the workers share behind a lock that is held across
the receive.
-/

namespace Feed

open List

def poolDescriptorChannelDepth : Nat := 16

inductive Dispatcher where
  | sending (position : Nat)
  | finished
  /-- A send found every receiver gone. -/
  | failed (position : Nat)

def Dispatcher.Gone : Dispatcher → Prop
  | .sending _ => False
  | .finished => True
  | .failed _ => True

structure State where
  dispatcher : Dispatcher
  queue : List Nat
  /-- The worker that holds the receiver. -/
  lock : Option Nat

def start : State := ⟨.sending 0, [], none⟩

inductive Dispatches (n : Nat) (rxOpen : Prop) (f : State) : State → Prop where
  | send (p : Nat) (hp : f.dispatcher = .sending p) (hlt : p < n) (hopen : rxOpen)
      (hroom : f.queue.length < poolDescriptorChannelDepth) :
      Dispatches n rxOpen f { f with dispatcher := .sending (p + 1), queue := f.queue ++ [p] }
  | sendFails (p : Nat) (hp : f.dispatcher = .sending p) (hlt : p < n) (hclosed : ¬ rxOpen) :
      Dispatches n rxOpen f { f with dispatcher := .failed p }
  | finish (hp : f.dispatcher = .sending n) :
      Dispatches n rxOpen f { f with dispatcher := .finished }

/-- `next_position` of worker `w`, from where it has the lock. -/
inductive Receives (w : Nat) (f : State) : Option Nat → State → Prop where
  | position (p : Nat) (rest : List Nat) (hlock : f.lock = some w) (hq : f.queue = p :: rest) :
      Receives w f (some p) { f with queue := rest, lock := none }
  | closed (hlock : f.lock = some w) (hq : f.queue = []) (hgone : f.dispatcher.Gone) :
      Receives w f none { f with lock := none }

/-- How many positions were sent. -/
def sent (n : Nat) (f : State) : Nat :=
  match f.dispatcher with
  | .sending p => p
  | .finished => n
  | .failed p => p

/-- How many positions were received. -/
def taken (n : Nat) (f : State) : Nat := sent n f - f.queue.length

/-- The queue holds the positions sent last, in order. -/
structure Fine (n : Nat) (f : State) : Prop where
  le : f.queue.length ≤ sent n f
  bound : sent n f ≤ n
  queue : f.queue = range' (taken n f) f.queue.length

variable {n w p : Nat} {rxOpen : Prop} {f g : State} {r : Option Nat}

lemma fine_start (n : Nat) : Fine n start := by
  refine ⟨Nat.le_refl _, Nat.zero_le _, rfl⟩

lemma dispatches_sent (h : Dispatches n rxOpen f g) : taken n g = taken n f := by
  cases h with
  | send p hp hlt hopen hroom =>
    simp only [taken, sent, hp, length_append, length_singleton]
    omega
  | sendFails _ hp | finish hp => simp only [taken, sent, hp]

lemma Fine.dispatch (hf : Fine n f) (h : Dispatches n rxOpen f g) : Fine n g := by
  have htaken := dispatches_sent h
  have hle := hf.le
  have hbound := hf.bound
  have hqueue := hf.queue
  cases h with
  | send p hp hlt hopen hroom =>
    have hsent : sent n f = p := by simp only [sent, hp]
    have hback : taken n f + f.queue.length = p := by
      rw [taken, hsent]
      omega
    refine ⟨?_, hlt, ?_⟩
    · change (f.queue ++ [p]).length ≤ p + 1
      rw [length_append, length_singleton]
      omega
    · rw [htaken]
      change f.queue ++ [p] = range' (taken n f) (f.queue ++ [p]).length
      rw [length_append, length_singleton, range'_concat, Nat.one_mul, hback, ← hqueue]
  | sendFails p hp hlt hclosed =>
    have hsent : sent n f = p := by simp only [sent, hp]
    rw [hsent] at hle
    refine ⟨hle, Nat.le_of_lt hlt, ?_⟩
    rw [htaken]
    exact hqueue
  | finish hp =>
    have hsent : sent n f = n := by simp only [sent, hp]
    rw [hsent] at hle
    refine ⟨hle, Nat.le_refl _, ?_⟩
    rw [htaken]
    exact hqueue

lemma dispatches_lock (h : Dispatches n rxOpen f g) : g.lock = f.lock := by
  cases h <;> rfl

lemma Fine.lock (hf : Fine n f) (l : Option Nat) : Fine n { f with lock := l } :=
  ⟨hf.le, hf.bound, hf.queue⟩

/-- A worker receives the next position that was not received yet. -/
theorem Fine.receive (hf : Fine n f) (h : Receives w f (some p) g) :
    p = taken n f ∧ taken n g = p + 1 ∧ p < n ∧ Fine n g := by
  cases h with
  | position _ rest hlock hq =>
    have hle := hf.le
    have hbound := hf.bound
    have hqueue := hf.queue
    rw [hq, length_cons] at hle
    rw [hq, length_cons, range'_succ] at hqueue
    obtain ⟨hp, hrest⟩ := cons.inj hqueue
    have htaken : taken n f = sent n f - (rest.length + 1) := by rw [taken, hq, length_cons]
    have hnext : taken n { f with queue := rest, lock := none } = p + 1 := by
      change sent n f - rest.length = p + 1
      omega
    refine ⟨hp, hnext, by omega, ?_, hbound, ?_⟩
    · change rest.length ≤ sent n f
      omega
    · rw [hnext, hp]
      exact hrest

lemma receives_closed (h : Receives w f none g) :
    f.queue = [] ∧ f.dispatcher.Gone ∧ f.lock = some w ∧ g = { f with lock := none } := by
  cases h with
  | closed hlock hq hgone => exact ⟨hq, hgone, hlock, rfl⟩

lemma receives_lock (h : Receives w f r g) : f.lock = some w ∧ g.lock = none := by
  cases h with
  | position p rest hlock hq => exact ⟨hlock, rfl⟩
  | closed hlock hq hgone => exact ⟨hlock, rfl⟩

lemma receives_dispatcher (h : Receives w f r g) : g.dispatcher = f.dispatcher := by
  cases h <;> rfl

/-- With the lock held and the receiver open, the feed can go on. -/
theorem progress (hf : Fine n f) (hlock : f.lock = some w) (hopen : rxOpen) :
    (∃ r g, Receives w f r g) ∨ ∃ g, Dispatches n rxOpen f g := by
  cases hq : f.queue with
  | cons p rest => exact .inl ⟨_, _, .position p rest hlock hq⟩
  | nil =>
    cases hd : f.dispatcher with
    | sending p =>
      right
      have hbound := hf.bound
      simp only [sent, hd] at hbound
      by_cases hlt : p < n
      · exact ⟨_, .send p hd hlt hopen (by rw [hq]; decide)⟩
      · have : p = n := by omega
        subst this
        exact ⟨_, .finish hd⟩
    | finished | failed => exact .inl ⟨_, _, .closed hlock hq (by rw [hd]; trivial)⟩

/-- With no receiver left, the dispatcher ends. -/
theorem dispatcher_ends (hf : Fine n f) (hclosed : ¬ rxOpen) (hrun : ¬ f.dispatcher.Gone) :
    ∃ g, Dispatches n rxOpen f g := by
  cases hd : f.dispatcher with
  | sending p =>
    have hbound := hf.bound
    simp only [sent, hd] at hbound
    by_cases hlt : p < n
    · exact ⟨_, .sendFails p hd hlt hclosed⟩
    · have : p = n := by omega
      subst this
      exact ⟨_, .finish hd⟩
  | finished | failed => exact absurd (by rw [hd]; trivial) hrun

end Feed
