import Pbfhogg.Read.Frames

/-!
# Lists of frames

A walk over any prefix of the bytes of frames delivers those that lie in it whole, and then ends:
cleanly when at most three bytes follow the last of them, with an error otherwise.
-/

namespace FrameLists

open Protohoggr BlobWire ByteSource Frame List

variable {ph : Crate}

/-- The walk `fr` accepts `frames` one after the other as the headers and payloads `delivered`. -/
inductive Accepts (ph : Crate) :
    Frames Unit → List Bytes → List (FrameHeader × Bytes) → Prop
  | nil {fr : Frames Unit} : Accepts ph fr [] []
  | cons {fr fr' : Frames Unit} {buf payload : Bytes} {h : FrameHeader} {pending : Pending}
      {frames : List Bytes} {delivered : List (FrameHeader × Bytes)} :
      0 < buf.length → buf.length < maxBlobHeaderSize →
      acceptHeader ph fr.fields fr.partialIndex.isSome fr.streamStart fr.nextId buf.length buf =
        .ok (h, pending) →
      h.dataSize = payload.length →
      (fr.atPayload h buf).finish pending = (.ok (), fr') →
      Accepts ph fr' frames delivered →
      Accepts ph fr ((u32ToBe buf.length ++ (buf ++ payload)) :: frames) ((h, payload) :: delivered)

/-- The events of frames delivered whole, their payloads read or skipped from frame `i` on. -/
def wholeEvents (choose : Nat → Bool) : Nat → List (FrameHeader × Bytes) → List Event
  | _, [] => []
  | i, (h, payload) :: delivered =>
    .header h :: (if choose i then .payload payload else .skipped) ::
      wholeEvents choose (i + 1) delivered

/-- How a walk ends whose whole frames are behind it, with `left` bytes and the frame of header
`next` to come: cleanly at three bytes or fewer, else with an error, behind the header at most. -/
inductive Outcome (whole : List Event) (left : Nat) (next : Option FrameHeader) :
    List Event × Ending → Prop
  | clean : left ≤ 3 → Outcome whole left next (whole, .clean)
  | failed {e : Frame.Error} : next.isSome → Outcome whole left next (whole, .failed e)
  | failedAtPayload {h : FrameHeader} {e : Frame.Error} :
      next = some h → Outcome whole left next (whole ++ [.header h], .failed e)

/-- Where the first `k` frames end. -/
def boundary (frames : List Bytes) (k : Nat) : Nat := (frames.take k).flatten.length

/-- The first `k` frames are the ones that lie whole in `n` bytes. -/
structure WholeIn (frames : List Bytes) (n k : Nat) : Prop where
  le : k ≤ frames.length
  reached : boundary frames k ≤ n
  next : k < frames.length → n < boundary frames (k + 1)

@[simp] lemma boundary_zero (frames : List Bytes) : boundary frames 0 = 0 := by
  simp [boundary]

@[simp] lemma boundary_cons (f : Bytes) (frames : List Bytes) (k : Nat) :
    boundary (f :: frames) (k + 1) = f.length + boundary frames k := by
  simp [boundary]

/-- How many frames lie whole in `n` bytes. -/
def wholeCount : List Bytes → Nat → Nat
  | [], _ => 0
  | f :: frames, n => if f.length ≤ n then wholeCount frames (n - f.length) + 1 else 0

variable {frames : List Bytes} {fr : Frames Unit} {buf : Bytes}
  {delivered : List (FrameHeader × Bytes)}

lemma wholeIn_wholeCount {n : Nat} : WholeIn frames n (wholeCount frames n) := by
  induction frames generalizing n with
  | nil => exact ⟨Nat.le_refl _, by simp [wholeCount], by simp [wholeCount]⟩
  | cons f frames ih =>
    rw [wholeCount]
    by_cases hle : f.length ≤ n
    · obtain ⟨h1, h2, h3⟩ := @ih (n - f.length)
      rw [if_pos hle]
      refine ⟨by simpa using h1, ?_, fun hk => ?_⟩
      · rw [boundary_cons]
        omega
      · have := h3 (by simpa using hk)
        rw [boundary_cons]
        omega
    · rw [if_neg hle]
      exact ⟨Nat.zero_le _, by simp, fun _ => by rw [boundary_cons, boundary_zero]; omega⟩

lemma wholeCount_all (frames : List Bytes) :
    wholeCount frames frames.flatten.length = frames.length := by
  induction frames with
  | nil => rfl
  | cons f frames ih =>
    rw [wholeCount, flatten_cons, length_append, if_pos (by omega),
      Nat.add_sub_cancel_left, ih, length_cons]

lemma frontTurn_cut (read : Bool) {payload : Bytes} {h : FrameHeader} {pending : Pending}
    (hpos : 0 < buf.length) (hmax : buf.length < maxBlobHeaderSize)
    (haccept : acceptHeader ph fr.fields fr.partialIndex.isSome fr.streamStart fr.nextId buf.length
      buf = .ok (h, pending)) (hsize : h.dataSize = payload.length) {n : Nat}
    (hn : n < (u32ToBe buf.length ++ (buf ++ payload)).length) :
    (n ≤ 3 ∧ frontTurn ph read fr ((u32ToBe buf.length ++ (buf ++ payload)).take n) =
        .stop [] .clean) ∨
      (∃ e, frontTurn ph read fr ((u32ToBe buf.length ++ (buf ++ payload)).take n) =
        .stop [] (.failed e)) ∨
      ∃ e, frontTurn ph read fr ((u32ToBe buf.length ++ (buf ++ payload)).take n) =
        .stop [.header h] (.failed e) := by
  have hlen : ((u32ToBe buf.length ++ (buf ++ payload)).take n).length = n := by
    rw [length_take]
    omega
  rw [length_append, length_append, u32ToBe_length] at hn
  by_cases h4 : n < 4
  · left
    refine ⟨by omega, ?_⟩
    unfold frontTurn frontFrame
    rw [if_pos (by omega)]
  have htake : (u32ToBe buf.length ++ (buf ++ payload)).take n =
      u32ToBe buf.length ++ ((buf ++ payload).take (n - 4)) := by
    rw [take_append, u32ToBe_length, take_of_length_le (by rw [u32ToBe_length]; omega)]
  by_cases hcut : n < 4 + buf.length
  · right
    left
    have hmax' : buf.length < 2 ^ 32 := by
      unfold maxBlobHeaderSize at hmax
      omega
    have hcheck : checkHeaderLen buf.length = .ok buf.length := by
      unfold checkHeaderLen
      rw [if_neg (by omega), if_neg (by omega)]
    unfold frontTurn frontFrame
    rw [if_neg (by omega), hlen, htake, take_left' (u32ToBe_length _),
      u32FromBe_u32ToBe hmax', hcheck]
    simp only [if_pos hcut]
    exact ⟨_, rfl⟩
  · right
    right
    obtain ⟨hl, -⟩ := acceptHeader_ok haccept
    rw [htake, take_append, take_of_length_le (by omega)]
    unfold frontTurn
    rw [frontFrame_framed fr hpos hmax, haccept]
    simp only [Except.map]
    rw [if_pos]
    · exact ⟨_, rfl⟩
    · simp only [length_append, length_take, u32ToBe_length, FrameHeader.payloadOffset]
      omega

lemma Outcome.cons {choose : Nat → Bool} {i left : Nat} {h : FrameHeader} {payload : Bytes}
    {delivered : List (FrameHeader × Bytes)} {next : Option FrameHeader}
    {walked : List Event × Ending}
    (ho : Outcome (wholeEvents choose (i + 1) delivered) left next walked) :
    Outcome (wholeEvents choose i ((h, payload) :: delivered)) left next
      (.header h :: (if choose i then .payload payload else .skipped) :: walked.1, walked.2) := by
  cases ho with
  | clean hl => exact .clean hl
  | failed hn => exact .failed hn
  | failedAtPayload hn => exact .failedAtPayload hn

/-- The first frame lies whole in a prefix: the frame, and a prefix of the others. -/
theorem take_whole {payload : Bytes} {n : Nat}
    (h : (u32ToBe buf.length ++ (buf ++ payload)).length ≤ n) :
    ((u32ToBe buf.length ++ (buf ++ payload)) :: frames).flatten.take n =
      u32ToBe buf.length ++ (buf ++ (payload ++
        frames.flatten.take (n - (u32ToBe buf.length ++ (buf ++ payload)).length))) := by
  rw [flatten_cons, take_append, take_of_length_le h]
  simp only [append_assoc]

/-- The walk over the first `n` bytes of accepted frames. -/
theorem frontWalk_cut {fr : Frames Unit} {frames : List Bytes}
    {delivered : List (FrameHeader × Bytes)} (ha : Accepts ph fr frames delivered)
    (choose : Nat → Bool) {fuel i n : Nat} (hfuel : (frames.flatten.take n).length < fuel)
    (hn : n ≤ frames.flatten.length) :
    Outcome (wholeEvents choose i (delivered.take (wholeCount frames n)))
      (n - boundary frames (wholeCount frames n)) (delivered[wholeCount frames n]?.map Prod.fst)
      (frontWalk ph choose fuel i fr (frames.flatten.take n)) := by
  induction ha generalizing fuel i n with
  | nil =>
    obtain ⟨fuel, rfl⟩ : ∃ m, fuel = m + 1 := ⟨fuel - 1, by omega⟩
    simp only [flatten_nil, length_nil, Nat.le_zero] at hn
    subst hn
    exact .clean (Nat.zero_le _)
  | @cons fr fr' buf payload h pending frames delivered hpos hmax haccept hsize hfin ha' ih =>
    obtain ⟨fuel, rfl⟩ : ∃ m, fuel = m + 1 := ⟨fuel - 1, by omega⟩
    rw [wholeCount]
    by_cases hwhole : (u32ToBe buf.length ++ (buf ++ payload)).length ≤ n
    · -- The first frame is whole: one turn, and the walk over what is left of the prefix.
      have hturn := frontTurn_framed (choose i) hpos hmax haccept hsize
        (frames.flatten.take (n - (u32ToBe buf.length ++ (buf ++ payload)).length)) hfin
      rw [flatten_cons, length_append] at hn
      rw [take_whole hwhole] at hfuel ⊢
      have ho := @ih fuel (i + 1) (n - (u32ToBe buf.length ++ (buf ++ payload)).length)
        (by simp only [length_append, u32ToBe_length] at hfuel ⊢; omega) (by omega)
      rw [if_pos hwhole, frontWalk, hturn, boundary_cons, take_succ_cons,
        getElem?_cons_succ, ← Nat.sub_sub]
      exact ho.cons
    · have htake : ((u32ToBe buf.length ++ (buf ++ payload)) :: frames).flatten.take n =
          (u32ToBe buf.length ++ (buf ++ payload)).take n := by
        rw [flatten_cons, take_append_of_le_length (by omega)]
      rw [if_neg hwhole, htake, frontWalk]
      rcases frontTurn_cut (choose i) hpos hmax haccept hsize (by omega : n < _) with
        ⟨h3, ht⟩ | ⟨e, ht⟩ | ⟨e, ht⟩
      · rw [ht]
        exact .clean (by rw [boundary_zero]; omega)
      · rw [ht]
        exact .failed (by simp)
      · rw [ht]
        exact .failedAtPayload rfl

lemma Accepts.length_eq (ha : Accepts ph fr frames delivered) :
    delivered.length = frames.length := by
  induction ha with
  | nil => rfl
  | cons _ _ _ _ _ _ ih => rw [length_cons, length_cons, ih]

lemma frontWalk_all (ha : Accepts ph fr frames delivered) (choose : Nat → Bool) :
    frontWalk ph choose (frames.flatten.length + 1) 0 fr frames.flatten =
      (wholeEvents choose 0 delivered, .clean) := by
  have ho := @frontWalk_cut ph fr frames delivered ha choose (frames.flatten.length + 1) 0
    frames.flatten.length (by rw [take_length]; omega) (Nat.le_refl _)
  have hlen := ha.length_eq
  rw [take_length, wholeCount_all, ← hlen, take_length, getElem?_eq_none (Nat.le_refl _)] at ho
  generalize frontWalk ph choose (frames.flatten.length + 1) 0 fr frames.flatten = walked at ho
  cases ho with
  | clean _ => rfl
  | failed hn => cases hn
  | failedAtPayload hn => cases hn

section Raw

variable {τ : Type} {S : Source τ}

lemma finish_headerBuf (fr : Frames τ) (pending : Pending) :
    (fr.finish pending).2.headerBuf = fr.headerBuf := by
  unfold Frames.finish
  simp only
  split
  · split <;> rfl
  · rfl

lemma takePending_headerBuf (fr : Frames τ) : fr.takePending.2.headerBuf = fr.headerBuf := by
  unfold Frames.takePending
  split
  · rfl
  · split <;> rfl

lemma readPayload_headerBuf (fr : Frames τ) : (fr.readPayload S).2.headerBuf = fr.headerBuf := by
  have htake := takePending_headerBuf fr
  unfold Frames.readPayload
  split
  · next fr' ht =>
    rw [ht] at htake
    exact htake
  · next pending fr' ht =>
    rw [ht] at htake
    simp only at htake ⊢
    split
    · exact htake
    · next got src _ =>
      split
      · exact htake
      · have hfin := finish_headerBuf ({ fr' with src := src } : Frames τ) pending
        split
        · next hf =>
          rw [hf] at hfin
          exact hfin.trans htake
        · next hf =>
          rw [hf] at hfin
          exact hfin.trans htake

lemma nextRaw_of_turn (fr : Frames τ) :
    match turn ph S true fr with
    | .stop _ .clean => (fr.nextRaw ph S).1 = .ok none
    | .stop _ (.failed e) => (fr.nextRaw ph S).1 = .error e
    | .stop _ .outOfFuel => False
    | .go h ev fr' => ∃ payload, ev = .payload payload ∧
        fr.nextRaw ph S = (.ok (some (Frames.rawFrame h fr'.headerBuf payload)), fr') := by
  unfold turn Frames.nextRaw
  rcases fr.nextHeader ph S with ⟨_ | _ | h, fr'⟩
  · rfl
  · rfl
  · have hbuf := readPayload_headerBuf (S := S) fr'
    simp only [consume, if_true]
    rcases hp : fr'.readPayload S with ⟨_ | payload, fr''⟩
    · rfl
    · rw [hp] at hbuf
      simp only at hbuf ⊢
      exact ⟨payload, rfl, by rw [hbuf]⟩

/-- The raw frame of header `h` and bytes `f`. -/
def rawOf (f : Bytes) (h : FrameHeader) : RawBlobFrame :=
  { Frames.rawFrame h [] [] with frameBytes := f }

/-- How a raw walk ends, as `Outcome` has it for the other. -/
inductive RawOutcome (whole : List RawBlobFrame) (left : Nat) (more : Prop) :
    List RawBlobFrame × Ending → Prop
  | clean : left ≤ 3 → RawOutcome whole left more (whole, .clean)
  | failed {e : Frame.Error} : more → RawOutcome whole left more (whole, .failed e)

/-- The raw frames of frames delivered whole. -/
def rawFrames (frames : List Bytes) (delivered : List (FrameHeader × Bytes)) :
    List RawBlobFrame :=
  zipWith (fun f d => rawOf f d.1) frames delivered

lemma finish_ok_headerBuf {fr' : Frames Unit} {h : FrameHeader} {pending : Pending}
    (hfin : (fr.atPayload h buf).finish pending = (.ok (), fr')) : fr'.headerBuf = buf := by
  have := finish_headerBuf (fr.atPayload h buf) pending
  rw [hfin] at this
  exact this

section Deliver

variable {bound : Nat} {R : τ → Bytes → Prop}

/-- A raw frame is decided by the bytes. -/
theorem nextRaw_eq (hd : Delivers S bound R R) (hbound : maxBlobDatasize ≤ bound)
    {fr : Frames Unit} (hr : fr.Ready) {s : τ} {rest : Bytes} (hf : FillsAt S R 4 s rest) :
    match frontTurn ph true fr rest with
    | .stop _ .clean => ((fr.withSrc s).nextRaw ph S).1 = .ok none
    | .stop _ (.failed e) => ((fr.withSrc s).nextRaw ph S).1 = .error e
    | .stop _ .outOfFuel => False
    | .go h ev (fr', rest') => ∃ s' payload, ev = .payload payload ∧ R s' rest' ∧
        (fr.withSrc s).nextRaw ph S =
          (.ok (some (Frames.rawFrame h fr'.headerBuf payload)), fr'.withSrc s') := by
  have hturn := @turn_eq ph τ S bound R R hd hbound true fr hr s rest hf
  have hraw := @nextRaw_of_turn ph τ S (fr.withSrc s)
  cases ht : frontTurn ph true fr rest with
  | stop events ending =>
    rw [ht] at hturn
    simp only at hturn
    rw [hturn] at hraw
    cases ending <;> exact hraw
  | go h ev next =>
    obtain ⟨fr', rest'⟩ := next
    rw [ht] at hturn
    simp only [if_true] at hturn
    obtain ⟨s', hs', hgo⟩ := hturn
    rw [hgo] at hraw
    obtain ⟨payload, hev, hnext⟩ := hraw
    exact ⟨s', payload, hev, hs', hnext⟩

/-- The raw walk over the first `n` bytes of accepted frames. -/
theorem rawWalk_cut (hd : Delivers S bound R R) (hbound : maxBlobDatasize ≤ bound)
    (hfill : ∀ {s rest}, R s rest → FillsAt S R 4 s rest) {fr : Frames Unit} (hr : fr.Ready)
    {frames : List Bytes} {delivered : List (FrameHeader × Bytes)}
    (ha : Accepts ph fr frames delivered) {fuel n : Nat}
    (hfuel : (frames.flatten.take n).length < fuel) (hn : n ≤ frames.flatten.length) {s : τ}
    (hs : R s (frames.flatten.take n)) :
    RawOutcome (rawFrames (frames.take (wholeCount frames n)) delivered)
      (n - boundary frames (wholeCount frames n)) (wholeCount frames n < frames.length)
      (rawWalkFuel ph S fuel (fr.withSrc s)) := by
  induction ha generalizing fuel n s with
  | @nil fr =>
    obtain ⟨fuel, rfl⟩ : ∃ m, fuel = m + 1 := ⟨fuel - 1, by omega⟩
    simp only [flatten_nil, length_nil, Nat.le_zero] at hn
    subst hn
    have hraw := @nextRaw_eq ph τ S bound R hd hbound fr hr s _ (hfill hs)
    have hturn : frontTurn ph true fr [] = .stop [] .clean := rfl
    rw [flatten_nil, take_nil, hturn] at hraw
    rw [rawWalkFuel, eq_mk_of_fst hraw]
    exact .clean (Nat.zero_le _)
  | @cons fr fr' buf payload h pending frames delivered hpos hmax haccept hsize hfin ha' ih =>
    obtain ⟨fuel, rfl⟩ : ∃ m, fuel = m + 1 := ⟨fuel - 1, by omega⟩
    have hraw := @nextRaw_eq ph τ S bound R hd hbound fr hr s _ (hfill hs)
    rw [wholeCount, rawWalkFuel]
    by_cases hwhole : (u32ToBe buf.length ++ (buf ++ payload)).length ≤ n
    · have hturn := frontTurn_framed true hpos hmax haccept hsize
        (frames.flatten.take (n - (u32ToBe buf.length ++ (buf ++ payload)).length)) hfin
      rw [flatten_cons, length_append] at hn
      rw [take_whole hwhole] at hfuel hraw
      rw [hturn] at hraw
      simp only [if_true, Event.payload.injEq] at hraw
      obtain ⟨s', payload', rfl, hs', hnext⟩ := hraw
      have hready := (frontTurn_go hr hturn).1
      have ho := @ih hready fuel (n - (u32ToBe buf.length ++ (buf ++ payload)).length)
        (by simp only [length_append, u32ToBe_length] at hfuel ⊢; omega) (by omega) s' hs'
      have hrawOf : Frames.rawFrame h fr'.headerBuf payload =
          rawOf (u32ToBe buf.length ++ (buf ++ payload)) h := by
        obtain ⟨hl, -⟩ := acceptHeader_ok haccept
        rw [finish_ok_headerBuf hfin, rawOf, Frames.rawFrame, hl, append_assoc]
        rfl
      rw [if_pos hwhole, hnext, boundary_cons, take_succ_cons, ← Nat.sub_sub]
      simp only [hrawOf, length_cons, Nat.add_lt_add_iff_right]
      generalize rawWalkFuel ph S fuel (fr'.withSrc s') = walked at ho
      cases ho with
      | clean hl => exact .clean hl
      | failed hm => exact .failed hm
    · have htake : ((u32ToBe buf.length ++ (buf ++ payload)) :: frames).flatten.take n =
          (u32ToBe buf.length ++ (buf ++ payload)).take n := by
        rw [flatten_cons, take_append_of_le_length (by omega)]
      rw [if_neg hwhole]
      rw [htake] at hraw
      rcases frontTurn_cut true hpos hmax haccept hsize (by omega : n < _) with
        ⟨h3, ht⟩ | ⟨e, ht⟩ | ⟨e, ht⟩
      · rw [ht] at hraw
        rw [eq_mk_of_fst hraw]
        exact .clean (by rw [boundary_zero]; omega)
      · rw [ht] at hraw
        rw [eq_mk_of_fst hraw]
        exact .failed (by simp)
      · rw [ht] at hraw
        rw [eq_mk_of_fst hraw]
        exact .failed (by simp)

lemma rawWalk_all (hd : Delivers S bound R R) (hbound : maxBlobDatasize ≤ bound)
    (hfill : ∀ {s rest}, R s rest → FillsAt S R 4 s rest) (hr : fr.Ready)
    (ha : Accepts ph fr frames delivered) {s : τ} (hs : R s frames.flatten) :
    rawWalkFuel ph S (frames.flatten.length + 1) (fr.withSrc s) =
      (rawFrames frames delivered, .clean) := by
  have ho := @rawWalk_cut ph τ S bound R hd hbound hfill fr hr frames delivered ha
    (frames.flatten.length + 1) frames.flatten.length (by rw [take_length]; omega)
    (Nat.le_refl _) s (by rw [take_length]; exact hs)
  rw [wholeCount_all, take_length] at ho
  generalize rawWalkFuel ph S (frames.flatten.length + 1) (fr.withSrc s) = walked at ho
  cases ho with
  | clean _ => rfl
  | failed hm => omega

end Deliver

end Raw

end FrameLists
