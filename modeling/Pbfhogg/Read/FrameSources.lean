import Pbfhogg.Read.Frames

/-!
# The walk over each source

A plain reader, a reader that seeks past payloads and the `pread` source of `read/header_walker.rs`
under one frame walk. The `pread` source serves a frame's prefix from a probe window. A payload that
is read keeps the window, which may then end inside the next prefix, and `fill` takes that for the
end of the input.
-/

namespace FrameSources

open Protohoggr BlobWire ByteSource Frame List

def headerProbeSize : Nat := 4096

/-- A file read by position, bounded by the size captured at open. -/
structure PreadSource where
  file : Bytes
  pos : Nat
  fileSize : Nat
  window : Bytes
  windowAt : Nat
  windowLen : Nat

variable (file : Bytes)

/-- Exactly `len` bytes at `offset`. -/
def preadExact (len offset : Nat) : Except IoError Bytes :=
  if offset + len ≤ file.length then .ok ((file.drop offset).take len)
  else .error .unexpectedEof

namespace PreadSource

def opened : PreadSource := ⟨file, 0, file.length, [], 0, 0⟩

variable (p : PreadSource)

def remaining : Nat := p.fileSize - p.pos

/-- The window bytes from the current position on, if it lies inside the window. -/
def windowed : Bytes :=
  if p.windowAt ≤ p.pos ∧ p.pos - p.windowAt < p.windowLen then
    (p.window.take p.windowLen).drop (p.pos - p.windowAt)
  else []

def fill (probe : Nat) (p : PreadSource) (n : Nat) : Except IoError (Bytes × PreadSource) :=
  if p.remaining < n ∧ p.windowed = [] then .ok ([], p)
  else
    let probed : Except IoError PreadSource :=
      if p.windowed = [] then
        (preadExact p.file (min p.remaining probe) p.pos).map fun window =>
          { p with window := window, windowAt := p.pos, windowLen := min p.remaining probe }
      else .ok p
    probed.map fun p =>
      (p.windowed.take n, { p with pos := p.pos + min p.windowed.length n })

def append (n : Nat) : Except IoError (Bytes × PreadSource) :=
  let take := min p.remaining n
  let fromWindow := min p.windowed.length take
  let rest := take - fromWindow
  if 0 < rest then
    (preadExact p.file rest (p.pos + fromWindow)).map fun bytes =>
      (p.windowed.take fromWindow ++ bytes, { p with pos := p.pos + fromWindow + rest })
  else .ok (p.windowed.take fromWindow, { p with pos := p.pos + fromWindow })

def skipBytes (n : Nat) : Except IoError (Bool × PreadSource) :=
  if p.remaining < n then .ok (false, { p with windowLen := 0 })
  else .ok (true, { p with windowLen := 0, pos := p.pos + n })

end PreadSource

def preadSource (probe : Nat) : Source PreadSource where
  fill := PreadSource.fill probe
  append := PreadSource.append
  skipBytes := PreadSource.skipBytes

namespace PreadSource

/-- The source stands before `rest`, and its window holds what the file holds there. -/
structure At (p : PreadSource) (rest : Bytes) : Prop where
  size : p.fileSize = p.file.length
  rest : p.file.drop p.pos = rest
  pos : p.pos ≤ p.file.length
  behind : p.windowAt ≤ p.pos
  inside : p.windowAt + p.windowLen ≤ p.file.length
  window : p.window.take p.windowLen = (p.file.drop p.windowAt).take p.windowLen

/-- How many bytes of the window lie ahead. -/
def ahead (p : PreadSource) : Nat := p.windowAt + p.windowLen - p.pos

lemma opened_at : (opened file).At file where
  size := rfl
  rest := rfl
  pos := Nat.zero_le _
  behind := Nat.le_refl _
  inside := Nat.zero_le _
  window := rfl

variable {p : PreadSource} {rest : Bytes}

lemma At.length (h : p.At rest) : rest.length = p.file.length - p.pos := by
  rw [← h.rest, length_drop]

lemma At.remaining_eq (h : p.At rest) : p.remaining = rest.length := by
  rw [h.length, remaining, h.size]

lemma At.ahead_le (h : p.At rest) : p.ahead ≤ rest.length := by
  have := h.length
  have := h.inside
  unfold ahead
  omega

lemma At.windowed_eq (h : p.At rest) : p.windowed = rest.take p.ahead := by
  have hbehind := h.behind
  unfold windowed ahead
  by_cases hin : p.pos - p.windowAt < p.windowLen
  · rw [if_pos ⟨hbehind, hin⟩, h.window, drop_take, drop_drop, ← h.rest]
    congr 1
    · omega
    · congr 1
      omega
  · rw [if_neg (fun hc => hin hc.2), show p.windowAt + p.windowLen - p.pos = 0 by omega,
      take_zero]

lemma At.windowed_length (h : p.At rest) : p.windowed.length = p.ahead := by
  have := h.ahead_le
  rw [h.windowed_eq, length_take]
  omega

lemma At.windowed_nil (h : p.At rest) : p.windowed = [] ↔ p.ahead = 0 := by
  rw [← length_eq_zero_iff, h.windowed_length]

/-- Moving the position inside the file keeps the window. -/
theorem At.advance (h : p.At rest) {n : Nat} (hn : n ≤ rest.length) :
    ({ p with pos := p.pos + n } : PreadSource).At (rest.drop n) where
  size := h.size
  rest := by
    rw [← h.rest, drop_drop]
  pos := by
    have := h.length
    have := h.pos
    simp only
    omega
  behind := Nat.le_trans h.behind (Nat.le_add_right _ _)
  inside := h.inside
  window := h.window

/-- `append` delivers the bytes ahead, from the window and past it, and keeps the window. -/
theorem append_eq (h : p.At rest) (n : Nat) :
    p.append n = .ok (rest.take n, { p with pos := p.pos + min rest.length n }) := by
  have hahead := h.ahead_le
  have hlen := h.length
  have hpos := h.pos
  have htake : rest.take (min rest.length n) = rest.take n :=
    take_eq_take_iff.mpr (by omega)
  unfold append
  simp only [h.remaining_eq, h.windowed_length]
  simp only [h.windowed_eq, take_take]
  by_cases hmore : 0 < min rest.length n - min p.ahead (min rest.length n)
  · have hw : min p.ahead (min rest.length n) = p.ahead := by omega
    have hfile : p.file.drop (p.pos + p.ahead) = rest.drop p.ahead := by
      rw [← h.rest, drop_drop]
    rw [if_pos hmore, hw, preadExact, if_pos (by omega), hfile, Nat.min_self]
    simp only [Except.map, Except.ok.injEq, Prod.mk.injEq]
    refine ⟨?_, ?_⟩
    · rw [← take_add, ← htake]
      congr 1
      omega
    · congr 1
      omega
  · have hw : min p.ahead (min rest.length n) = min rest.length n := by omega
    rw [if_neg hmore, hw, show min (min rest.length n) p.ahead = min rest.length n by omega, htake]

/-- The probe at a frame boundary where the window has run out. -/
def probed (probe : Nat) (p : PreadSource) : PreadSource :=
  { p with
    window := (p.file.drop p.pos).take (min p.remaining probe)
    windowAt := p.pos
    windowLen := min p.remaining probe }

lemma At.probed (h : p.At rest) (probe : Nat) :
    (p.probed probe).At rest ∧ (p.probed probe).ahead = min rest.length probe := by
  have hlen := h.length
  have hpos := h.pos
  have hrem := h.remaining_eq
  refine ⟨⟨h.size, h.rest, h.pos, Nat.le_refl _, ?_, ?_⟩, ?_⟩
  · show p.pos + min p.remaining probe ≤ p.file.length
    omega
  · show ((p.file.drop p.pos).take (min p.remaining probe)).take (min p.remaining probe) =
      (p.file.drop p.pos).take (min p.remaining probe)
    rw [take_take, Nat.min_self]
  · show p.pos + min p.remaining probe - p.pos = _
    omega

/-- `fill` serves the window where one is ahead, else probes; it serves at most the window. -/
theorem fill_eq (h : p.At rest) (probe n : Nat) :
    p.fill probe n =
      if p.ahead = 0 then
        if rest.length < n then .ok ([], p)
        else .ok (rest.take (min probe n),
          { p.probed probe with pos := p.pos + min (min rest.length probe) n })
      else .ok (rest.take (min p.ahead n), { p with pos := p.pos + min p.ahead n }) := by
  have hlen := h.length
  have hpos := h.pos
  unfold fill
  by_cases hw : p.ahead = 0
  · have hnil := h.windowed_nil.mpr hw
    rw [if_pos hw]
    by_cases hshort : rest.length < n
    · rw [if_pos hshort, if_pos ⟨by rw [h.remaining_eq]; exact hshort, hnil⟩]
    have hrem := h.remaining_eq
    obtain ⟨hp, hahead⟩ := h.probed probe
    have hread : preadExact p.file (min p.remaining probe) p.pos =
        .ok ((p.file.drop p.pos).take (min p.remaining probe)) := by
      rw [preadExact, if_pos (by omega)]
    rw [if_neg hshort, if_neg (fun hc => hshort (by rw [← hrem]; exact hc.1))]
    simp only [if_pos hnil, hread, Except.map]
    show Except.ok ((p.probed probe).windowed.take n,
      { p.probed probe with pos := p.pos + min (p.probed probe).windowed.length n }) = _
    rw [hp.windowed_length, hp.windowed_eq, hahead, take_take]
    congr 2
    exact take_eq_take_iff.mpr (by omega)
  · have hne : p.windowed ≠ [] := fun hc => hw (h.windowed_nil.mp hc)
    rw [if_neg hw, if_neg (fun hc => hne hc.2)]
    simp only [if_neg hne, Except.map]
    rw [h.windowed_length, h.windowed_eq, take_take, Nat.min_comm n]

/-- The window ends inside the next `n` bytes of an input that has them. -/
def cuts (p : PreadSource) (n : Nat) (rest : Bytes) : Prop :=
  0 < p.ahead ∧ p.ahead < n ∧ n ≤ rest.length

/-- `fill` stops short before the end of the input exactly where the window ends. -/
theorem fill_short_iff (h : p.At rest) {probe n : Nat} (hn : n ≤ probe) :
    (∃ got p', p.fill probe n = .ok (got, p') ∧ got.length < n ∧ n ≤ rest.length) ↔
      p.cuts n rest := by
  rw [fill_eq h]
  have hahead := h.ahead_le
  unfold cuts
  constructor
  · rintro ⟨got, p', hfill, hgot, hle⟩
    split at hfill
    · rw [if_neg (by omega)] at hfill
      cases hfill
      rw [length_take] at hgot
      omega
    · cases hfill
      rw [length_take] at hgot
      omega
  · rintro ⟨hpos, hlt, hle⟩
    rw [if_neg (by omega)]
    refine ⟨_, _, rfl, ?_, hle⟩
    rw [length_take]
    omega

/-- Before `rest` of `file`, with a window that ends at `windowEnd`. -/
def Holds (windowEnd : Nat) (p : PreadSource) (rest : Bytes) : Prop :=
  p.At rest ∧ p.file = file ∧ p.windowAt + p.windowLen = windowEnd

/-- Before `rest` of `file`, with no window. -/
def Dropped (p : PreadSource) (rest : Bytes) : Prop :=
  p.At rest ∧ p.file = file ∧ p.windowLen = 0

lemma delivers (probe bound : Nat) (file : Bytes) (windowEnd : Nat) :
    Delivers (preadSource probe) bound (Holds file windowEnd) (Dropped file) where
  append {p rest} n h := by
    obtain ⟨hat, hfile, hend⟩ := h
    refine ⟨_, append_eq hat n, fun hle => ⟨?_, hfile, hend⟩⟩
    rw [Nat.min_eq_right hle]
    exact hat.advance hle
  skip {p rest n} _ h := by
    obtain ⟨hat, hfile, -⟩ := h
    show ∃ s', p.skipBytes n = _ ∧ _
    unfold skipBytes
    have hrem := hat.remaining_eq
    by_cases hle : n ≤ rest.length
    · rw [if_neg (by omega), decide_eq_true hle]
      have hat' := hat.advance hle
      have hpos := hat'.pos
      have hbehind := hat'.behind
      simp only at hpos hbehind
      refine ⟨_, rfl, fun _ => ⟨⟨hat'.size, hat'.rest, hat'.pos, hat'.behind, ?_, ?_⟩, hfile, rfl⟩⟩
      · show p.windowAt + 0 ≤ p.file.length
        omega
      · show p.window.take 0 = (p.file.drop p.windowAt).take 0
        rw [take_zero, take_zero]
    · rw [if_pos (by omega), decide_eq_false hle]
      exact ⟨_, rfl, fun hc => absurd hc hle⟩

/-- The window ahead after the prefix was served: a fresh probe where none was left. -/
def served (probe ahead : Nat) (rest : Bytes) : Nat :=
  if ahead = 0 then min rest.length probe else ahead

lemma fillsAt (h : p.At rest) {probe : Nat} (hprobe : 4 ≤ probe) (hcut : ¬p.cuts 4 rest) :
    FillsAt (preadSource probe) (Holds p.file (p.pos + served probe p.ahead rest)) 4 p rest := by
  have hfill := fill_eq h probe 4
  unfold cuts at hcut
  show if _ then ∃ s', p.fill probe 4 = _ ∧ _ else ∃ got s', p.fill probe 4 = _ ∧ _
  rw [hfill]
  unfold served
  by_cases hw : p.ahead = 0
  · simp only [if_pos hw]
    by_cases hle : 4 ≤ rest.length
    · obtain ⟨hp, hahead'⟩ := h.probed probe
      rw [if_pos hle, if_neg (by omega), show min probe 4 = 4 by omega,
        show min (min rest.length probe) 4 = 4 by omega]
      refine ⟨_, rfl, hp.advance hle, rfl, ?_⟩
      show p.pos + min p.remaining probe = _
      rw [h.remaining_eq]
    · rw [if_neg hle, if_pos (by omega)]
      exact ⟨[], p, rfl, by simp⟩
  · simp only [if_neg hw]
    by_cases hle : 4 ≤ rest.length
    · rw [if_pos hle, show min p.ahead 4 = 4 by omega]
      refine ⟨_, rfl, h.advance hle, rfl, ?_⟩
      show p.windowAt + p.windowLen = p.pos + p.ahead
      unfold ahead at hw ⊢
      omega
    · rw [if_neg hle]
      refine ⟨_, _, rfl, ?_⟩
      rw [length_take]
      omega

end PreadSource

section Walks

variable (ph : Crate)

/-- Some frame boundary that the walk comes to by reading has the end of the probe window one to
three bytes behind it and four bytes of input or more. `ahead` is how much of the window lies ahead
at the first one. -/
def windowCutsPrefix (probe : Nat) (choose : Nat → Bool) :
    Nat → Nat → Nat → Frames Unit → Bytes → Bool
  | 0, _, _, _, _ => false
  | fuel + 1, i, ahead, fr, rest =>
    decide (0 < ahead ∧ ahead < 4 ∧ 4 ≤ rest.length) ||
      match frontTurn ph (choose i) fr rest with
      | .stop _ _ => false
      | .go _ _ (fr', rest') =>
        windowCutsPrefix probe choose fuel (i + 1)
          (if choose i then PreadSource.served probe ahead rest - (rest.length - rest'.length)
            else 0)
          fr' rest'

variable {ph} {rest : Bytes} {fr : Frames Unit}

/-- The bytes in front of a walk are its clean end only where they hold no prefix. -/
theorem frontTurn_clean {read : Bool} {events : List Event}
    (h : frontTurn ph read fr rest = .stop events .clean) : rest.length < 4 := by
  by_contra hle
  unfold frontTurn at h
  split at h
  · cases h
  next hfront =>
    unfold frontFrame at hfront
    rw [if_neg hle] at hfront
    split at hfront
    · cases hfront
    split at hfront
    · cases hfront
    next headerLen hlen hcut =>
      cases ha : acceptHeader ph fr.fields fr.partialIndex.isSome fr.streamStart fr.nextId headerLen
        ((rest.drop 4).take headerLen) with
      | error | ok => simp [ha, Except.map] at hfront
  · split at h
    · cases h
    · split at h <;> cases h

/-- A fill that stops short is a clean end, whatever the input still holds. -/
theorem turn_short {τ : Type} {S : Source τ} {read : Bool} (hr : fr.Ready) {s s' : τ}
    {got : Bytes} (hfill : S.fill s 4 = .ok (got, s')) (hshort : got.length < 4) :
    turn ph S read (fr.withSrc s) = .stop [] .clean := by
  unfold turn Frames.nextHeader
  rw [if_neg (by simp [Frames.withSrc, hr.failed]), if_neg (by simp [Frames.withSrc, hr.pending]),
    if_neg (by simp [Frames.withSrc, hr.cancelled])]
  unfold Frames.readHeader
  have hsrc : (fr.withSrc s).src = s := rfl
  simp only [hsrc, hfill, if_pos hshort]

/-- The window ahead at the boundary a turn comes to. -/
theorem ahead_after {p p' : PreadSource} {n probe : Nat} {read : Bool} (hat : p.At rest)
    (hn : n ≤ rest.length)
    (h : (if read then PreadSource.Holds p.file (p.pos + PreadSource.served probe p.ahead rest)
      else PreadSource.Dropped p.file) p' (rest.drop n)) :
    p'.At (rest.drop n) ∧ p'.ahead =
      if read then PreadSource.served probe p.ahead rest - (rest.length - (rest.drop n).length)
      else 0 := by
  have hlen := hat.length
  have hpos := hat.pos
  cases read with
  | true =>
    simp only [if_true] at h ⊢
    obtain ⟨hat', hfile, hend⟩ := h
    have hlen' := hat'.length
    have hpos' := hat'.pos
    rw [length_drop, hfile] at hlen'
    rw [hfile] at hpos'
    refine ⟨hat', ?_⟩
    unfold PreadSource.ahead at hend ⊢
    rw [length_drop]
    omega
  | false =>
    simp only [Bool.false_eq_true, if_false] at h ⊢
    obtain ⟨hat', -, hzero⟩ := h
    have hbehind := hat'.behind
    refine ⟨hat', ?_⟩
    unfold PreadSource.ahead
    omega

lemma pread_walk_iff {probe : Nat} (hprobe : 4 ≤ probe) {choose : Nat → Bool} {fuel i : Nat}
    (hr : fr.Ready) {p : PreadSource} (hat : p.At rest) :
    walkFuel ph (preadSource probe) choose fuel i (fr.withSrc p) =
        frontWalk ph choose fuel i fr rest ↔
      windowCutsPrefix ph probe choose fuel i p.ahead fr rest = false := by
  induction fuel generalizing i fr p rest with
  | zero => simp [walkFuel, frontWalk, windowCutsPrefix]
  | succ fuel ih =>
    rw [walkFuel, frontWalk, windowCutsPrefix]
    by_cases hcut : p.cuts 4 rest
    · -- The short fill ends the walk cleanly; the bytes hold another prefix.
      obtain ⟨got, p', hfill, hshort, hle⟩ := (PreadSource.fill_short_iff hat hprobe).mpr hcut
      have hdecide : decide (0 < p.ahead ∧ p.ahead < 4 ∧ 4 ≤ rest.length) = true :=
        decide_eq_true hcut
      rw [turn_short hr hfill hshort, hdecide]
      simp only [Bool.true_or, Bool.true_eq_false, iff_false]
      cases ht : frontTurn ph (choose i) fr rest with
      | stop events ending =>
        intro heq
        simp only [Prod.mk.injEq] at heq
        rw [← heq.2] at ht
        have := frontTurn_clean ht
        omega
      | go h ev next =>
        obtain ⟨fr', rest'⟩ := next
        intro heq
        cases heq
    · have hturn := @turn_eq ph PreadSource (preadSource probe) maxBlobDatasize _ _
        (PreadSource.delivers probe _ p.file _) (Nat.le_refl _) (choose i) fr hr p rest
        (PreadSource.fillsAt hat hprobe hcut)
      have hdecide : decide (0 < p.ahead ∧ p.ahead < 4 ∧ 4 ≤ rest.length) = false :=
        decide_eq_false hcut
      rw [hdecide, Bool.false_or]
      cases ht : frontTurn ph (choose i) fr rest with
      | stop events ending =>
        rw [ht] at hturn
        simp only at hturn
        simp only [hturn]
      | go h ev next =>
        obtain ⟨fr', rest'⟩ := next
        rw [ht] at hturn
        simp only at hturn
        obtain ⟨p', hp', hgo⟩ := hturn
        obtain ⟨hr', n, -, hle, rfl⟩ := frontTurn_go hr ht
        obtain ⟨hat', hahead⟩ := ahead_after hat hle hp'
        simp only [hgo]
        rw [← hahead, ← ih hr' hat', Prod.mk.injEq, cons_inj_right, cons_inj_right]
        exact (Prod.ext_iff).symm

/-- A cut prefix is the clean end of the walk: what follows is dropped without an error. -/
theorem pread_walk_clean {probe : Nat} (hprobe : 4 ≤ probe) {choose : Nat → Bool} {fuel i : Nat}
    (hr : fr.Ready) {p : PreadSource} (hat : p.At rest)
    (hcuts : windowCutsPrefix ph probe choose fuel i p.ahead fr rest = true) :
    (walkFuel ph (preadSource probe) choose fuel i (fr.withSrc p)).2 = .clean := by
  induction fuel generalizing i fr p rest with
  | zero => simp [windowCutsPrefix] at hcuts
  | succ fuel ih =>
    rw [walkFuel]
    rw [windowCutsPrefix] at hcuts
    by_cases hcut : p.cuts 4 rest
    · obtain ⟨got, p', hfill, hshort, hle⟩ := (PreadSource.fill_short_iff hat hprobe).mpr hcut
      rw [turn_short hr hfill hshort]
    · have hturn := @turn_eq ph PreadSource (preadSource probe) maxBlobDatasize _ _
        (PreadSource.delivers probe _ p.file _) (Nat.le_refl _) (choose i) fr hr p rest
        (PreadSource.fillsAt hat hprobe hcut)
      have hdecide : decide (0 < p.ahead ∧ p.ahead < 4 ∧ 4 ≤ rest.length) = false :=
        decide_eq_false hcut
      rw [hdecide, Bool.false_or] at hcuts
      cases ht : frontTurn ph (choose i) fr rest with
      | stop events ending =>
        rw [ht] at hcuts
        cases hcuts
      | go h ev next =>
        obtain ⟨fr', rest'⟩ := next
        rw [ht] at hturn hcuts
        simp only at hturn hcuts
        obtain ⟨p', hp', hgo⟩ := hturn
        obtain ⟨hr', n, -, hle, rfl⟩ := frontTurn_go hr ht
        obtain ⟨hat', hahead⟩ := ahead_after hat hle hp'
        simp only [hgo]
        rw [← hahead] at hcuts
        exact ih hr' hat' hcuts

end Walks

section Claims

variable (ph : Crate) (choose : Nat → Bool) (fr : Frames Unit) (data : Bytes)

/-- The walk over a plain reader that serves `data` by `schedule`. -/
def plainWalk (schedule : List (Option Nat)) : List Event × Ending :=
  walkFuel ph reader choose (data.length + 1) 0 (fr.withSrc ⟨data, schedule⟩)

/-- The walk over a reader that seeks past the payloads it skips. -/
def seekWalk (schedule : List (Option Nat)) : List Event × Ending :=
  walkFuel ph seekReader choose (data.length + 1) 0 (fr.withSrc ⟨data, 0, schedule⟩)

/-- The walk over the `pread` source, opened on a file of these bytes. -/
def preadWalk (probe : Nat) : List Event × Ending :=
  walkFuel ph (preadSource probe) choose (data.length + 1) 0 (fr.withSrc (PreadSource.opened data))

/-- The walk over the bytes comes to a prefix that the probe window cuts. -/
def cutsPrefix (probe : Nat) : Bool :=
  windowCutsPrefix ph probe choose (data.length + 1) 0 0 fr data

variable {fr}

lemma plainWalk_eq (hr : fr.Ready) (schedule : List (Option Nat)) :
    plainWalk ph choose fr data schedule = frontWalk ph choose (data.length + 1) 0 fr data :=
  walkFuel_eq (reader_delivers maxBlobDatasize) (Nat.le_refl _) (reader_fillsAt 4) hr rfl

lemma seekWalk_eq (hr : fr.Ready) (schedule : List (Option Nat)) :
    seekWalk ph choose fr data schedule = frontWalk ph choose (data.length + 1) 0 fr data :=
  walkFuel_eq seekReader_delivers (by decide) (seekReader_fillsAt 4) hr ⟨rfl, Nat.zero_le _⟩

/-- A skip drops the window, so a walk that only skips comes to every prefix without one. -/
lemma windowCutsPrefix_skipping {choose : Nat → Bool} (hskip : ∀ i, choose i = false)
    (probe fuel i : Nat) (fr : Frames Unit) (rest : Bytes) :
    windowCutsPrefix ph probe choose fuel i 0 fr rest = false := by
  induction fuel generalizing i fr rest with
  | zero => rfl
  | succ fuel ih =>
    rw [windowCutsPrefix, hskip, decide_eq_false (by omega), Bool.false_or]
    split
    · rfl
    · exact ih _ _ _

/-- The plain and the seeking reader give one walk, and it ends. So does the `pread` source, which
the program only ever skips on, exactly when no prefix is cut by the probe window; where one is, its
walk ends there as if the input did. -/
theorem sources_same_walk_iff {probe : Nat} (hprobe : 4 ≤ probe) (hr : fr.Ready)
    (schedule schedule' : List (Option Nat)) :
    (plainWalk ph choose fr data schedule).2 ≠ .outOfFuel ∧
      seekWalk ph choose fr data schedule' = plainWalk ph choose fr data schedule ∧
      ((∀ i, choose i = false) →
        preadWalk ph choose fr data probe = plainWalk ph choose fr data schedule) ∧
      (preadWalk ph choose fr data probe = plainWalk ph choose fr data schedule ↔
        cutsPrefix ph choose fr data probe = false) ∧ (cutsPrefix ph choose fr data probe = true →
        (preadWalk ph choose fr data probe).2 = .clean) := by
  have hat := PreadSource.opened_at data
  rw [plainWalk_eq ph choose data hr, seekWalk_eq ph choose data hr]
  have hiff := @pread_walk_iff ph data fr probe hprobe choose (data.length + 1) 0 hr _ hat
  refine ⟨frontWalk_ends hr (Nat.lt_succ_self _), rfl, fun hskip => ?_, hiff, fun hcuts => ?_⟩
  · exact hiff.mpr (windowCutsPrefix_skipping ph hskip ..)
  · exact pread_walk_clean hprobe hr hat hcuts

end Claims

/-- A walk from the first byte of an input. -/
def fromStart : Frames Unit := Frames.new () (some 0) HeaderFields.indexes

/-- The header of a data blob of one byte, and of one whose frame ends three bytes before the first
probe does. -/
def oneByteHeader : Bytes := [10, 7, 79, 83, 77, 68, 97, 116, 97, 24, 1]

def longHeader : Bytes := [10, 7, 79, 83, 77, 68, 97, 116, 97, 24, 237, 31]

def shortFrame : Bytes := u32ToBe oneByteHeader.length ++ (oneByteHeader ++ [7])

def twoShort : Bytes := shortFrame ++ shortFrame

def longThenShort : Bytes :=
  u32ToBe longHeader.length ++ (longHeader ++ (replicate 4077 0 ++ shortFrame))

theorem sources_same_walk_two_frames :
    cutsPrefix Reference.crate (fun _ => true) fromStart twoShort headerProbeSize = false ∧
      preadWalk Reference.crate (fun _ => true) fromStart twoShort headerProbeSize =
        plainWalk Reference.crate (fun _ => true) fromStart twoShort [some 2, none] := by
  have hfree :
      cutsPrefix Reference.crate (fun _ => true) fromStart twoShort headerProbeSize = false := by
    decide +kernel
  exact ⟨hfree, (sources_same_walk_iff Reference.crate _ twoShort (by decide) ⟨rfl, rfl, rfl⟩
    [some 2, none] []).2.2.2.1.mpr hfree⟩

lemma longThenShort_length : longThenShort.length = 4108 + 1 := by
  simp only [longThenShort, length_append, u32ToBe_length, length_replicate]
  rfl

lemma longThenShort_turn : ∃ h ev fr',
    frontTurn Reference.crate true fromStart longThenShort = .go h ev (fr', shortFrame) := by
  have haccept : acceptHeader Reference.crate HeaderFields.indexes false 0 ⟨some 0, some 0⟩
      longHeader.length longHeader = .ok (⟨⟨some 0, some 0⟩, 12, 4077,
        { blobType := .osmData, datasize := 4077 }⟩, ⟨⟨some 0, some 0⟩, 4077, none⟩) := rfl
  exact ⟨_, _, _, frontTurn_framed true (by decide) (by decide) haccept
    (by rw [length_replicate]) _ rfl⟩

/-- The first probe of a file takes 4096 bytes. A first frame of 4093 that is read leaves three of
them, and the second frame is never seen. -/
theorem pread_walk_drops_second_frame :
    preadWalk Reference.crate (fun _ => true) fromStart longThenShort headerProbeSize ≠
      plainWalk Reference.crate (fun _ => true) fromStart longThenShort [] := by
  have hcuts :
      cutsPrefix Reference.crate (fun _ => true) fromStart longThenShort headerProbeSize = true := by
    obtain ⟨h, ev, fr', hturn⟩ := longThenShort_turn
    have hshort : shortFrame.length = 16 := rfl
    unfold cutsPrefix
    rw [windowCutsPrefix, hturn, Bool.or_eq_true]
    right
    simp only
    rw [longThenShort_length, windowCutsPrefix, PreadSource.served, longThenShort_length, hshort,
      Bool.or_eq_true]
    exact .inl rfl
  intro heq
  rw [plainWalk_eq _ _ _ ⟨rfl, rfl, rfl⟩] at heq
  have hfree := (pread_walk_iff (by decide) ⟨rfl, rfl, rfl⟩
    (PreadSource.opened_at longThenShort)).mp heq
  have hopen : (PreadSource.opened longThenShort).ahead = 0 := rfl
  rw [hopen] at hfree
  rw [cutsPrefix, hfree] at hcuts
  cases hcuts

end FrameSources
