import Mathlib.Algebra.Order.Group.Nat
import Pbfhogg.Lib.FileBytes

/-!
# Direct reading

`read/direct_reader.rs`: reads aligned in offset and length, served from a buffer, and the
positional read over the aligned span of a range. A transfer may be short; the file says how many
bytes each would bring, and the reader logs those it asked for. The alignment is a power of two,
whose mask is a remainder. `stuck` is a panic, or a loop of more rounds than there are bytes to go.
-/

namespace DirectReader

open FileBytes List

variable {r : Reader} {pos : Nat}

structure File where
  bytes : Bytes
  /-- What the `i`-th transfer would bring at most. -/
  transfers : Nat → Nat

/-- A transfer: its offset, the position already served there and the number of its bytes. -/
structure Pread where
  offset : Nat
  served : Nat
  count : Nat

def File.pread (f : File) (log : List Pread) (cap offset : Nat) : Bytes :=
  (f.bytes.drop offset).take (min (f.transfers log.length) cap)

/-- `x & !(align - 1)`. -/
def alignDown (align x : Nat) : Nat := x - x % align

structure AlignedReadBuffer where
  whole : Bytes
  len : Nat
  pos : Nat

namespace AlignedReadBuffer

variable (b : AlignedReadBuffer)

def remaining : Nat := b.len - b.pos

def unread : Bytes := (b.whole.take b.len).drop b.pos

def consume (n : Nat) : Option AlignedReadBuffer :=
  if n ≤ b.remaining then some { b with pos := b.pos + n } else none

def clearForFill : AlignedReadBuffer := { b with len := 0, pos := 0 }

end AlignedReadBuffer

structure Reader where
  buf : AlignedReadBuffer
  align : Nat
  eof : Bool
  fileLen : Nat
  readLimit : Nat
  filePos : Nat
  log : List Pread

/-- `from_opened`, for a buffer of `cap` bytes. -/
def fromOpened (f : File) (cap align : Nat) (isFile : Bool) : Reader where
  buf := ⟨replicate cap 0, 0, 0⟩
  align := align
  eof := false
  fileLen := f.bytes.length
  readLimit := if isFile then f.bytes.length else 2 ^ 64 - 1
  filePos := 0
  log := []

inductive Out where
  | bytes (got : Bytes)
  | skipped
  | pastEnd
  | stuck
  deriving DecidableEq

section Sequential

variable (f : File)

def fillWith (r : Reader) : Nat × Reader :=
  let cleared := r.buf.clearForFill
  if r.readLimit ≤ r.filePos then (0, { r with buf := cleared })
  else
    let base := alignDown r.align r.filePos
    let lead := r.filePos - base
    let bytes := f.pread r.log cleared.whole.length base
    let n := bytes.length
    let whole := bytes ++ cleared.whole.drop n
    let log := r.log ++ [⟨base, r.filePos, n⟩]
    if n ≤ lead then (0, { r with buf := ⟨whole, 0, 0⟩, log := log })
    else (n - lead, { r with buf := ⟨whole, n, lead⟩, filePos := base + n, log := log })

/-- The end of `read_with`: the buffered bytes that fit. -/
def serve (outLen : Nat) (r : Reader) : Out × Reader :=
  let n := min outLen r.buf.remaining
  match r.buf.consume n with
  | none => (.stuck, r)
  | some buf => (.bytes (r.buf.unread.take n), { r with buf := buf })

def readWith (r : Reader) (outLen : Nat) : Out × Reader :=
  if r.buf.remaining = 0 then
    if r.eof then (.bytes [], r)
    else
      let (n, r) := fillWith f r
      if n = 0 then (.bytes [], { r with eof := true }) else serve outLen r
  else serve outLen r

/-- The loop of `skip_with`, with a bound on its rounds; `none` when they run out. -/
def skipLoop (target : Nat) : Nat → Reader → Option Bool × Reader
  | 0, r => if target ≤ r.filePos then (some true, r) else (none, r)
  | fuel + 1, r =>
    if target ≤ r.filePos then (some true, r)
    else
      let (n, r) := fillWith f r
      if n = 0 then (some false, { r with eof := true }) else skipLoop target fuel r

def skipWith (r : Reader) (n : Nat) : Out × Reader :=
  let buffered := r.buf.remaining
  if n ≤ buffered then
    match r.buf.consume n with
    | none => (.stuck, r)
    | some buf => (.skipped, { r with buf := buf })
  else
    let pastBuf := n - buffered
    let target := (r.filePos + pastBuf) % 2 ^ 64
    let aligned := alignDown r.align target
    let cleared := { r with buf := r.buf.clearForFill }
    if aligned = target then
      if r.fileLen < target then (.pastEnd, { cleared with eof := true })
      else (.skipped, { cleared with filePos := target })
    else
      match skipLoop f target (target - aligned) { cleared with filePos := aligned } with
      | (none, r) => (.stuck, r)
      | (some false, r) => (.pastEnd, r)
      | (some true, r) =>
        match r.buf.consume (r.buf.remaining - (r.filePos - target)) with
        | none => (.stuck, r)
        | some buf => (.skipped, { r with buf := buf })

inductive Op where
  | read (outLen : Nat)
  | skip (n : Nat)

def call (r : Reader) : Op → Out × Reader
  | .read outLen => readWith f r outLen
  | .skip n => skipWith f r n

/-- The results of the calls, one for each, and the reader behind them. -/
def run : Reader → List Op → List (Op × Out) × Reader
  | r, [] => ([], r)
  | r, op :: ops =>
    let (out, r') := call f r op
    let (outs, r'') := run r' ops
    ((op, out) :: outs, r'')

end Sequential

inductive Outcome where
  | ok (got : Bytes)
  | unexpectedEof
  | invalidInput
  | stuck
  deriving DecidableEq

/-- `slice_mut`: the first `len` bytes of the scratch, a fresh one where it is shorter. -/
def sliceMut (scratch : Bytes) (len : Nat) : Bytes :=
  if scratch.length < len then replicate len 0 else scratch.take len

/-- The loop of `read_aligned_in`, with a bound on its rounds. -/
def readLoop (f : File) (align start span lead need : Nat) :
    Nat → Nat → Bytes → List Pread → Outcome × List Pread
  | 0, got, buf, log =>
    if need ≤ got then (.ok ((buf.take need).drop lead), log) else (.stuck, log)
  | fuel + 1, got, buf, log =>
    if need ≤ got then (.ok ((buf.take need).drop lead), log)
    else
      let base := alignDown align got
      let bytes := f.pread log (span - base) (start + base)
      let n := bytes.length
      let log := log ++ [⟨start + base, start + got, n⟩]
      if n = 0 ∨ base + n ≤ got then (.unexpectedEof, log)
      else readLoop f align start span lead need fuel (base + n) (writeAt buf base bytes) log

def needOf (align len offset : Nat) : Nat := offset - alignDown align offset + len

def spanOf (align len offset : Nat) : Nat := alignDown align (needOf align len offset + (align - 1))

/-- The checked additions of `read_aligned_in`. -/
def overflows (align len offset : Nat) : Prop :=
  2 ^ 64 ≤ needOf align len offset ∨ 2 ^ 64 ≤ needOf align len offset + (align - 1) ∨
    2 ^ 64 ≤ alignDown align offset + spanOf align len offset

instance (align len offset : Nat) : Decidable (overflows align len offset) := by
  unfold overflows
  exact inferInstance

def readAlignedIn (f : File) (align : Nat) (scratch : Bytes) (len offset : Nat) :
    Outcome × List Pread :=
  if len = 0 then (.ok [], [])
  else if overflows align len offset then (.invalidInput, [])
  else
    let start := alignDown align offset
    let need := needOf align len offset
    let span := spanOf align len offset
    readLoop f align start span (offset - start) need need 0 (sliceMut scratch span) []

/-- Every transfer brings a byte past those already served, or the file has none. -/
def Honest (f : File) (log : List Pread) : Prop :=
  ∀ p ∈ log, p.served < f.bytes.length → p.served < p.offset + p.count

/-- Results a plain reader of the file may give from `pos` on. A failed skip leaves it at the end,
where no skip can follow; nothing is said from there on. -/
def Plain (file : Bytes) : Nat → Bool → List (Op × Out) → Prop
  | _, _, [] => True
  | pos, failed, (.read outLen, out) :: rest =>
    ∃ got, out = .bytes got ∧ got = (file.drop pos).take got.length ∧ got.length ≤ outLen ∧
      (got = [] → outLen = 0 ∨ file.length ≤ pos) ∧ Plain file (pos + got.length) failed rest
  | pos, failed, (.skip n, out) :: rest =>
    (failed = true ∧ 0 < n) ∨ 2 ^ 64 ≤ pos + n ∨
      if pos + n ≤ file.length then out = .skipped ∧ Plain file (pos + n) failed rest
      else out = .pastEnd ∧ Plain file file.length true rest

lemma alignDown_le (align x : Nat) : alignDown align x ≤ x := Nat.sub_le _ _

lemma dvd_alignDown (align x : Nat) : align ∣ alignDown align x := Nat.dvd_sub_mod x

/-- Transfers were added, at aligned offsets. -/
structure Logged (r r' : Reader) : Prop where
  align : r'.align = r.align
  log : ∃ more, r'.log = r.log ++ more ∧ ∀ p ∈ more, r.align ∣ p.offset

lemma Logged.of_eq {r' : Reader} (halign : r'.align = r.align) (hlog : r'.log = r.log) :
    Logged r r' :=
  ⟨halign, [], by simp [hlog], by simp⟩

lemma Logged.trans {r' r'' : Reader} (h : Logged r r') (h' : Logged r' r'') : Logged r r'' := by
  obtain ⟨more, hmore, hall⟩ := h.log
  obtain ⟨more', hmore', hall'⟩ := h'.log
  refine ⟨h'.align.trans h.align, more ++ more', by rw [hmore', hmore, append_assoc], ?_⟩
  intro p hp
  rcases mem_append.mp hp with hp | hp
  · exact hall p hp
  · rw [← h.align]
    exact hall' p hp

lemma Logged.honest {f : File} {r' : Reader} (h : Logged r r') (hlog : Honest f r'.log) :
    Honest f r.log := by
  obtain ⟨more, hmore, -⟩ := h.log
  intro p hp
  refine hlog p ?_
  rw [hmore]
  exact mem_append_left more hp

section Sequential

variable {f : File}

lemma fillWith_logged (r : Reader) : Logged r (fillWith f r).2 := by
  unfold fillWith
  simp only
  have hnew : ∀ n, ∀ p ∈ [Pread.mk (alignDown r.align r.filePos) r.filePos n],
      r.align ∣ p.offset := by
    intro n p hp
    rw [mem_singleton.mp hp]
    exact dvd_alignDown _ _
  split
  · exact .of_eq rfl rfl
  · split
    · exact ⟨rfl, _, rfl, hnew _⟩
    · exact ⟨rfl, _, rfl, hnew _⟩

lemma serve_logged (outLen : Nat) (r : Reader) : Logged r (serve outLen r).2 := by
  unfold serve
  simp only
  split <;> exact .of_eq rfl rfl

lemma readWith_logged (r : Reader) (outLen : Nat) : Logged r (readWith f r outLen).2 := by
  unfold readWith
  simp only
  split
  · split
    · exact .of_eq rfl rfl
    · have hfill := fillWith_logged (f := f) r
      split
      · exact hfill.trans (.of_eq rfl rfl)
      · exact hfill.trans (serve_logged outLen _)
  · exact serve_logged outLen r

lemma skipLoop_logged (target fuel : Nat) (r : Reader) : Logged r (skipLoop f target fuel r).2 := by
  induction fuel generalizing r with
  | zero =>
    unfold skipLoop
    split <;> exact .of_eq rfl rfl
  | succ fuel ih =>
    unfold skipLoop
    split
    · exact .of_eq rfl rfl
    · have hfill := fillWith_logged (f := f) r
      simp only
      split
      · exact hfill.trans (.of_eq rfl rfl)
      · exact hfill.trans (ih _)

lemma skipWith_logged (r : Reader) (n : Nat) : Logged r (skipWith f r n).2 := by
  unfold skipWith
  simp only
  split
  · split <;> exact .of_eq rfl rfl
  · split
    · split <;> exact .of_eq rfl rfl
    · generalize hloop : skipLoop f _ _ _ = res
      have hlogged := skipLoop_logged (f := f) ((r.filePos + (n - r.buf.remaining)) % 2 ^ 64)
        ((r.filePos + (n - r.buf.remaining)) % 2 ^ 64 -
          alignDown r.align ((r.filePos + (n - r.buf.remaining)) % 2 ^ 64))
        { r with
          buf := r.buf.clearForFill
          filePos := alignDown r.align ((r.filePos + (n - r.buf.remaining)) % 2 ^ 64) }
      rw [hloop] at hlogged
      have hstart : Logged r res.2 := by
        refine Logged.trans ?_ hlogged
        exact .of_eq rfl rfl
      obtain ⟨ended, r'⟩ := res
      cases ended with
      | none => exact hstart
      | some reached =>
        cases reached with
        | false => exact hstart
        | true =>
          simp only
          split
          · exact hstart
          · exact hstart.trans (.of_eq rfl rfl)

lemma call_logged (r : Reader) (op : Op) : Logged r (call f r op).2 := by
  cases op with
  | read outLen => exact readWith_logged r outLen
  | skip n => exact skipWith_logged r n

lemma run_logged (ops : List Op) (r : Reader) : Logged r (run f r ops).2 := by
  induction ops generalizing r with
  | nil => exact .of_eq rfl rfl
  | cons op ops ih => exact (call_logged r op).trans (ih _)

structure Sound (f : File) (r : Reader) : Prop where
  align : 0 < r.align
  posLe : r.buf.pos ≤ r.buf.len
  lenLe : r.buf.len ≤ r.buf.whole.length
  fileLen : r.fileLen = f.bytes.length
  limit : f.bytes.length ≤ r.readLimit

/-- The reader stands at `pos`: what its buffer still holds is the file from there on. -/
structure Stands (f : File) (r : Reader) (pos : Nat) : Prop extends Sound f r where
  filePos : r.filePos = pos + r.buf.remaining
  inFile : r.filePos ≤ f.bytes.length
  window : IsPiece f.bytes pos r.buf.unread

lemma Sound.length_unread (h : Sound f r) : r.buf.unread.length = r.buf.remaining := by
  have hlen := h.lenLe
  simp only [AlignedReadBuffer.unread, AlignedReadBuffer.remaining, length_drop, length_take]
  omega

/-- A reader at the end of the file, with nothing buffered. -/
structure Spent (r : Reader) : Prop where
  eof : r.eof = true
  remaining : r.buf.remaining = 0

lemma fillWith_spec (h : Sound f r) (hlog : Honest f (fillWith f r).2.log) :
    Sound f (fillWith f r).2 ∧ (fillWith f r).2.eof = r.eof ∧
      ((fillWith f r).1 = 0 ∧ f.bytes.length ≤ r.filePos ∧ (fillWith f r).2.buf.remaining = 0 ∧
          (fillWith f r).2.filePos = r.filePos ∨
        0 < (fillWith f r).1 ∧ (fillWith f r).2.buf.remaining = (fillWith f r).1 ∧
          Stands f (fillWith f r).2 r.filePos) := by
  by_cases hlimit : r.readLimit ≤ r.filePos
  · have hfill : fillWith f r = (0, { r with buf := r.buf.clearForFill }) := if_pos hlimit
    rw [hfill]
    have hend := h.limit
    exact ⟨⟨h.align, Nat.le_refl _, Nat.zero_le _, h.fileLen, h.limit⟩, rfl,
      .inl ⟨rfl, by omega, rfl, rfl⟩⟩
  · have hbase := alignDown_le r.align r.filePos
    obtain ⟨base, hbasedef⟩ : ∃ base, base = alignDown r.align r.filePos := ⟨_, rfl⟩
    obtain ⟨bytes, hbytes⟩ : ∃ bytes, bytes = f.pread r.log r.buf.whole.length base := ⟨_, rfl⟩
    have hpiece : IsPiece f.bytes base bytes := by
      rw [hbytes]
      exact isPiece_take_drop
    have hcap : bytes.length ≤ r.buf.whole.length := by
      rw [hbytes, File.pread, length_take]
      omega
    have hroom : (bytes ++ r.buf.whole.drop bytes.length).length = r.buf.whole.length := by
      rw [length_append, length_drop]
      omega
    rw [← hbasedef] at hbase
    by_cases hlead : bytes.length ≤ r.filePos - base
    · have hfill : fillWith f r = (0, { r with
          buf := ⟨bytes ++ r.buf.whole.drop bytes.length, 0, 0⟩
          log := r.log ++ [⟨base, r.filePos, bytes.length⟩] }) := by
        subst hbasedef hbytes
        exact (if_neg hlimit).trans (if_pos hlead)
      rw [hfill] at hlog ⊢
      have hend := hlog ⟨base, r.filePos, bytes.length⟩ (by simp)
      simp only at hend
      exact ⟨⟨h.align, Nat.le_refl _, Nat.zero_le _, h.fileLen, h.limit⟩, rfl,
        .inl ⟨rfl, by omega, rfl, rfl⟩⟩
    · have hfill : fillWith f r = (bytes.length - (r.filePos - base), { r with
          buf := ⟨bytes ++ r.buf.whole.drop bytes.length, bytes.length, r.filePos - base⟩
          filePos := base + bytes.length
          log := r.log ++ [⟨base, r.filePos, bytes.length⟩] }) := by
        subst hbasedef hbytes
        exact (if_neg hlimit).trans (if_neg hlead)
      have hne : bytes ≠ [] := ne_nil_of_length_pos (by omega)
      have hinside := hpiece.le_length hne
      have hsound : Sound f { r with
          buf := ⟨bytes ++ r.buf.whole.drop bytes.length, bytes.length, r.filePos - base⟩
          filePos := base + bytes.length
          log := r.log ++ [⟨base, r.filePos, bytes.length⟩] } :=
        ⟨h.align, by simp only; omega, by simp only [hroom]; exact hcap, h.fileLen, h.limit⟩
      rw [hfill]
      refine ⟨hsound, rfl, .inr ⟨by simp only; omega, rfl, hsound, ?_, hinside, ?_⟩⟩
      · simp only [AlignedReadBuffer.remaining]
        omega
      · have hdrop := hpiece.drop (r.filePos - base)
        have hat : base + (r.filePos - base) = r.filePos := by omega
        rw [hat] at hdrop
        simpa only [AlignedReadBuffer.unread, take_left] using hdrop

lemma consume_spec (h : Stands f r pos) {n : Nat} (hn : n ≤ r.buf.remaining) :
    ∃ buf, r.buf.consume n = some buf ∧ Stands f { r with buf := buf } (pos + n) ∧
      r.buf.unread.take n = (f.bytes.drop pos).take n ∧ (r.buf.unread.take n).length = n := by
  have hlength := h.toSound.length_unread
  have hpos := h.posLe
  have hfile := h.filePos
  have htake : (r.buf.unread.take n).length = n := by
    rw [length_take, hlength]
    omega
  refine ⟨{ r.buf with pos := r.buf.pos + n }, if_pos hn, ?_, ?_, htake⟩
  · unfold AlignedReadBuffer.remaining at hn hfile
    refine ⟨⟨h.align, ?_, h.lenLe, h.fileLen, h.limit⟩, ?_, h.inFile, ?_⟩
    · simp only
      omega
    · simp only [AlignedReadBuffer.remaining]
      omega
    · have hdrop := h.window.drop n
      simpa only [AlignedReadBuffer.unread, drop_drop] using hdrop
  · apply ext_getElem?
    intro i
    by_cases hi : i < n
    · rw [getElem?_take_of_lt hi, getElem?_take_of_lt hi, getElem?_drop,
        h.window i (by omega)]
    · rw [getElem?_take_eq_none (by omega), getElem?_take_eq_none (by omega)]

/-- What a read from `pos` may give, and where it leaves the reader. -/
def Served (f : File) (pos outLen : Nat) (res : Out × Reader) : Prop :=
  ∃ got, res.1 = .bytes got ∧ got = (f.bytes.drop pos).take got.length ∧ got.length ≤ outLen ∧
    (got = [] → outLen = 0 ∨ f.bytes.length ≤ pos) ∧ Stands f res.2 (pos + got.length) ∧
    (res.2.eof = true → pos + got.length = f.bytes.length)

lemma serve_spec (h : Stands f r pos) (heof : r.eof = true → pos = f.bytes.length)
    (hsome : 0 < r.buf.remaining) (outLen : Nat) : Served f pos outLen (serve outLen r) := by
  obtain ⟨buf, hbuf, hstands, hsame, hlength⟩ := consume_spec h (Nat.min_le_right outLen _)
  have hinside := h.inFile
  have hfile := h.filePos
  have hserve : serve outLen r = (.bytes (r.buf.unread.take (min outLen r.buf.remaining)),
      { r with buf := buf }) := by
    simp only [serve, hbuf]
  rw [hserve]
  refine ⟨_, rfl, by rw [hlength, hsame], ?_, ?_, ?_, ?_⟩
  · rw [hlength]
    exact Nat.min_le_left _ _
  · intro hnil
    rw [hnil, length_nil] at hlength
    omega
  · rw [hlength]
    exact hstands
  · intro he
    have := heof he
    omega

lemma readWith_spec (h : Stands f r pos) (heof : r.eof = true → pos = f.bytes.length)
    {outLen : Nat} (hlog : Honest f (readWith f r outLen).2.log) :
    Served f pos outLen (readWith f r outLen) := by
  by_cases hremaining : r.buf.remaining = 0
  · by_cases hend : r.eof = true
    · have hat := heof hend
      have hread : readWith f r outLen = (.bytes [], r) := (if_pos hremaining).trans (if_pos hend)
      rw [hread]
      exact ⟨[], rfl, rfl, Nat.zero_le _, fun _ => .inr (by omega), h, fun _ => hat⟩
    · have hread : readWith f r outLen = (if (fillWith f r).1 = 0 then
          (Out.bytes [], { (fillWith f r).2 with eof := true })
          else serve outLen (fillWith f r).2) := (if_pos hremaining).trans (if_neg hend)
      have hfilled : Honest f (fillWith f r).2.log := by
        rw [hread] at hlog
        split at hlog
        · exact hlog
        · exact (serve_logged outLen _).honest hlog
      have hfile := h.filePos
      have hinside := h.inFile
      rw [hremaining, Nat.add_zero] at hfile
      obtain ⟨hsound, hkept, ⟨hzero, hshort, hnone, hstay⟩ | ⟨hsome, hbuf, hstands⟩⟩ :=
        fillWith_spec h.toSound hfilled
      · have hlength := hsound.length_unread
        rw [hnone, length_eq_zero_iff] at hlength
        rw [hread, if_pos hzero]
        refine ⟨[], rfl, rfl, Nat.zero_le _, fun _ => .inr (by omega), ?_, ?_⟩
        · refine ⟨⟨hsound.align, hsound.posLe, hsound.lenLe, hsound.fileLen, hsound.limit⟩,
            ?_, ?_, ?_⟩
          · simp only [length_nil]
            omega
          · simp only
            omega
          · simp only [hlength]
            exact isPiece_nil
        · intro _
          simp only [length_nil]
          omega
      · rw [hread, if_neg (Nat.ne_of_gt hsome)]
        rw [hfile] at hstands
        refine serve_spec hstands ?_ (by omega) outLen
        intro he
        rw [hkept] at he
        exact heof he
  · have hread : readWith f r outLen = serve outLen r := if_neg hremaining
    rw [hread]
    exact serve_spec h heof (Nat.pos_of_ne_zero hremaining) outLen

/-- The loop ends with the buffer over its target, or where the file ends before it. -/
theorem skipLoop_spec {target fuel : Nat} (h : Sound f r) (hlt : r.filePos < target)
    (hfuel : target ≤ r.filePos + fuel) (hlog : Honest f (skipLoop f target fuel r).2.log) :
    (∃ r', skipLoop f target fuel r = (some false, r') ∧ f.bytes.length < target ∧ Spent r') ∨
      ∃ r' start, skipLoop f target fuel r = (some true, r') ∧ r'.eof = r.eof ∧ start < target ∧
        target ≤ r'.filePos ∧ Stands f r' start := by
  induction fuel generalizing r with
  | zero => omega
  | succ fuel ih =>
    have hloop : skipLoop f target (fuel + 1) r = (if (fillWith f r).1 = 0 then
        (some false, { (fillWith f r).2 with eof := true })
        else skipLoop f target fuel (fillWith f r).2) := if_neg (Nat.not_le.mpr hlt)
    have hfilled : Honest f (fillWith f r).2.log := by
      rw [hloop] at hlog
      split at hlog
      · exact hlog
      · exact (skipLoop_logged target fuel _).honest hlog
    obtain ⟨hsound, hkept, ⟨hzero, hshort, hnone, -⟩ | ⟨hsome, hbuf, hstands⟩⟩ :=
      fillWith_spec h hfilled
    · rw [hloop, if_pos hzero]
      exact .inl ⟨_, rfl, by omega, ⟨rfl, hnone⟩⟩
    · have hnext := hstands.filePos
      rw [hloop, if_neg (Nat.ne_of_gt hsome)] at hlog ⊢
      by_cases hreached : target ≤ (fillWith f r).2.filePos
      · have hdone : skipLoop f target fuel (fillWith f r).2 = (some true, (fillWith f r).2) := by
          cases fuel with
          | zero | succ => exact if_pos hreached
        exact .inr ⟨_, r.filePos, hdone, hkept, hlt, hreached, hstands⟩
      · rcases ih hsound (by omega) (by omega) hlog with hend | ⟨r', start, hrun, heof, hrest⟩
        · exact .inl hend
        · exact .inr ⟨r', start, hrun, heof.trans hkept, hrest⟩

/-- Where a skip of `n` bytes from `pos` leaves the reader. -/
def SkippedTo (f : File) (target : Nat) (res : Out × Reader) : Prop :=
  if target ≤ f.bytes.length then
    res.1 = .skipped ∧ Stands f res.2 target ∧ (res.2.eof = true → target = f.bytes.length)
  else res.1 = .pastEnd ∧ Spent res.2

lemma skipWith_spec {n : Nat} (h : Stands f r pos) (heof : r.eof = true → pos = f.bytes.length)
    (hlt : pos + n < 2 ^ 64) (hlog : Honest f (skipWith f r n).2.log) :
    SkippedTo f (pos + n) (skipWith f r n) := by
  have hfile := h.filePos
  have hinside := h.inFile
  by_cases hbuffered : n ≤ r.buf.remaining
  · obtain ⟨buf, hbuf, hstands, -⟩ := consume_spec h hbuffered
    have hskip : skipWith f r n = (.skipped, { r with buf := buf }) := by
      simp only [skipWith, if_pos hbuffered, hbuf]
    rw [hskip, SkippedTo, if_pos (by omega)]
    refine ⟨rfl, hstands, ?_⟩
    intro he
    have := heof he
    omega
  · have htarget : (r.filePos + (n - r.buf.remaining)) % 2 ^ 64 = pos + n := by
      rw [Nat.mod_eq_of_lt (by omega)]
      omega
    have hnotEnd : pos + n ≤ f.bytes.length → r.eof = false := by
      intro hle
      by_contra hne
      have := heof (Bool.eq_true_of_not_eq_false hne)
      omega
    have hcleared : ∀ filePos, Sound f { r with
        buf := r.buf.clearForFill
        filePos := filePos } := fun _ =>
      ⟨h.align, Nat.le_refl _, Nat.zero_le _, h.fileLen, h.limit⟩
    by_cases haligned : alignDown r.align (pos + n) = pos + n
    · have hlen := h.fileLen
      have hskip : skipWith f r n = (if r.fileLen < pos + n then
          (Out.pastEnd, { r with buf := r.buf.clearForFill, eof := true })
          else (.skipped, { r with buf := r.buf.clearForFill, filePos := pos + n })) := by
        simp only [skipWith, if_neg hbuffered, htarget, if_pos haligned]
      rw [hskip, SkippedTo]
      by_cases hpast : pos + n ≤ f.bytes.length
      · rw [if_pos hpast, if_neg (by omega)]
        have hempty := (hcleared (pos + n)).length_unread
        refine ⟨rfl, ⟨hcleared (pos + n), rfl, hpast, ?_⟩, ?_⟩
        · have hnil := length_eq_zero_iff.mp (hempty.trans rfl)
          rw [hnil]
          exact isPiece_nil
        · intro he
          rw [hnotEnd hpast] at he
          cases he
      · rw [if_neg hpast, if_pos (by omega)]
        exact ⟨rfl, rfl, rfl⟩
    · have hbelow := alignDown_le r.align (pos + n)
      obtain ⟨start, hstart⟩ : ∃ start, start = { r with
          buf := r.buf.clearForFill
          filePos := alignDown r.align (pos + n) } := ⟨_, rfl⟩
      obtain ⟨fuel, hfuel⟩ : ∃ fuel, fuel = pos + n - alignDown r.align (pos + n) := ⟨_, rfl⟩
      have hskip : skipWith f r n = (match skipLoop f (pos + n) fuel start with
          | (none, r) => (Out.stuck, r)
          | (some false, r) => (.pastEnd, r)
          | (some true, r) =>
            match r.buf.consume (r.buf.remaining - (r.filePos - (pos + n))) with
            | none => (.stuck, r)
            | some buf => (.skipped, { r with buf := buf })) := by
        subst hstart hfuel
        simp only [skipWith, if_neg hbuffered, htarget, if_neg haligned]
      have hsound : Sound f start := by
        rw [hstart]
        exact hcleared _
      have hposition : start.filePos = alignDown r.align (pos + n) := by rw [hstart]
      have hsame : start.eof = r.eof := by rw [hstart]
      have hloopLog : Honest f (skipLoop f (pos + n) fuel start).2.log := by
        rw [hskip] at hlog
        split at hlog
        · next heq => rw [heq]; exact hlog
        · next heq => rw [heq]; exact hlog
        · next heq =>
          rw [heq]
          split at hlog <;> exact hlog
      rcases skipLoop_spec hsound (by omega) (by omega) hloopLog with
        ⟨r', hrun, hpast, hspent⟩ | ⟨r', from', hrun, hkept, hbefore, hreached, hstands⟩
      · rw [hskip, hrun, SkippedTo, if_neg (by omega)]
        exact ⟨rfl, hspent⟩
      · have hwindow := hstands.filePos
        have hend := hstands.inFile
        obtain ⟨buf, hbuf, hlast, -⟩ := consume_spec hstands
          (Nat.sub_le r'.buf.remaining (r'.filePos - (pos + n)))
        have hat : from' + (r'.buf.remaining - (r'.filePos - (pos + n))) = pos + n := by omega
        rw [hat] at hlast
        rw [hskip, hrun, SkippedTo, if_pos (by omega)]
        simp only [hbuf]
        refine ⟨trivial, hlast, ?_⟩
        intro he
        rw [hkept, hsame, hnotEnd (by omega)] at he
        cases he

lemma spent_read (h : Spent r) (outLen : Nat) : readWith f r outLen = (.bytes [], r) :=
  (if_pos h.remaining).trans (if_pos h.eof)

lemma spent_skip (h : Spent r) : (skipWith f r 0).1 = .skipped ∧ Spent (skipWith f r 0).2 := by
  have hconsume : r.buf.consume 0 = some { r.buf with pos := r.buf.pos + 0 } :=
    if_pos (Nat.zero_le _)
  have hskip : skipWith f r 0 = (.skipped, { r with
      buf := { r.buf with pos := r.buf.pos + 0 } }) := by
    simp only [skipWith, if_pos (Nat.zero_le _), hconsume]
  rw [hskip]
  exact ⟨rfl, h.eof, h.remaining⟩

lemma run_plain (ops : List Op) {failed : Bool}
    (h : if failed then Spent r ∧ pos = f.bytes.length
      else Stands f r pos ∧ (r.eof = true → pos = f.bytes.length))
    (hlog : Honest f (run f r ops).2.log) : Plain f.bytes pos failed (run f r ops).1 := by
  induction ops generalizing r pos failed with
  | nil => exact trivial
  | cons op ops ih =>
    have hfirst : Honest f (call f r op).2.log := (run_logged ops _).honest hlog
    cases op with
    | read outLen =>
      cases failed with
      | false =>
        obtain ⟨got, hout, hsame, hle, hnil, hstands, heof⟩ := readWith_spec h.1 h.2 hfirst
        exact ⟨got, hout, hsame, hle, hnil, ih ⟨hstands, heof⟩ hlog⟩
      | true =>
        obtain ⟨hspent, hpos⟩ := h
        have hread : call f r (.read outLen) = (.bytes [], r) := spent_read hspent outLen
        have hstays : Spent (call f r (.read outLen)).2 := by
          rw [hread]
          exact hspent
        exact ⟨[], congrArg Prod.fst hread, rfl, Nat.zero_le _, fun _ => .inr (by omega),
          ih ⟨hstays, hpos⟩ hlog⟩
    | skip n =>
      cases failed with
      | false =>
        by_cases hwide : 2 ^ 64 ≤ pos + n
        · exact .inr (.inl hwide)
        · have hskip := skipWith_spec h.1 h.2 (by omega) hfirst
          refine .inr (.inr ?_)
          unfold SkippedTo at hskip
          split
          · next hle =>
            rw [if_pos hle] at hskip
            exact ⟨hskip.1, ih hskip.2 hlog⟩
          · next hgt =>
            rw [if_neg hgt] at hskip
            exact ⟨hskip.1, ih ⟨hskip.2, rfl⟩ hlog⟩
      | true =>
        obtain ⟨hspent, hpos⟩ := h
        by_cases hn : 0 < n
        · exact .inl ⟨rfl, hn⟩
        · have hzero : n = 0 := by omega
          subst hzero
          obtain ⟨hout, hspent'⟩ := spent_skip (f := f) hspent
          refine .inr (.inr ?_)
          rw [if_pos (by omega)]
          exact ⟨hout, ih ⟨hspent', hpos⟩ hlog⟩

end Sequential

section Positional

variable {f : File} {align start span lead need : Nat}

lemma readLoop_log (hstart : align ∣ start) (fuel got : Nat) (buf : Bytes) (log : List Pread) :
    ∃ more, (readLoop f align start span lead need fuel got buf log).2 = log ++ more ∧
      ∀ p ∈ more, align ∣ p.offset := by
  induction fuel generalizing got buf log with
  | zero =>
    unfold readLoop
    split <;> exact ⟨[], by simp, by simp⟩
  | succ fuel ih =>
    unfold readLoop
    simp only
    have hnew : ∀ n, ∀ p ∈ [Pread.mk (start + alignDown align got) (start + got) n],
        align ∣ p.offset := by
      intro n p hp
      rw [mem_singleton.mp hp]
      exact Nat.dvd_add hstart (dvd_alignDown _ _)
    split
    · exact ⟨[], by simp, by simp⟩
    · split
      · exact ⟨_, rfl, hnew _⟩
      · obtain ⟨more, hmore, hall⟩ := ih (alignDown align got + (f.pread log
          (span - alignDown align got) (start + alignDown align got)).length) (writeAt buf
          (alignDown align got) (f.pread log (span - alignDown align got)
            (start + alignDown align got))) (log ++ [⟨start + alignDown align got, start + got,
            (f.pread log (span - alignDown align got) (start + alignDown align got)).length⟩])
        refine ⟨_ :: more, by rw [hmore, append_assoc, singleton_append], ?_⟩
        intro p hp
        rcases mem_cons.mp hp with rfl | hp
        · exact hnew _ _ (mem_singleton.mpr rfl)
        · exact hall p hp

lemma take_of_holds {buf target : Bytes} {got : Nat} (h : Holds buf target 0 got)
    (hle : need ≤ got) : buf.take need = target.take need := by
  apply ext_getElem?
  intro i
  by_cases hi : i < need
  · rw [getElem?_take_of_lt hi, getElem?_take_of_lt hi, h i (Nat.zero_le i) (by omega)]
  · rw [getElem?_take_eq_none (by omega), getElem?_take_eq_none (by omega)]

/-- What lies in the buffer is the file from the start of the span on, as far as it was read. -/
theorem readLoop_spec (hstart : align ∣ start) (hneed : 0 < need) {fuel got : Nat}
    {buf : Bytes} {log : List Pread} (hfuel : need ≤ got + fuel)
    (hgot : got ≤ f.bytes.length - start) (hbuf : Holds buf (f.bytes.drop start) 0 got)
    (hlog : Honest f (readLoop f align start span lead need fuel got buf log).2) :
    (readLoop f align start span lead need fuel got buf log).1 =
      if start + need ≤ f.bytes.length then .ok (((f.bytes.drop start).take need).drop lead)
      else .unexpectedEof := by
  induction fuel generalizing got buf log with
  | zero =>
    have hloop : readLoop f align start span lead need 0 got buf log =
        (.ok ((buf.take need).drop lead), log) := if_pos (by omega)
    rw [hloop, if_pos (by omega), take_of_holds hbuf (by omega)]
  | succ fuel ih =>
    by_cases hle : need ≤ got
    · have hloop : readLoop f align start span lead need (fuel + 1) got buf log =
          (.ok ((buf.take need).drop lead), log) := if_pos hle
      rw [hloop, if_pos (by omega), take_of_holds hbuf hle]
    · have hbelow := alignDown_le align got
      obtain ⟨base, hbase⟩ : ∃ base, base = alignDown align got := ⟨_, rfl⟩
      obtain ⟨bytes, hbytes⟩ : ∃ bytes, bytes = f.pread log (span - base) (start + base) :=
        ⟨_, rfl⟩
      obtain ⟨log', hlog'⟩ : ∃ log', log' = log ++ [⟨start + base, start + got, bytes.length⟩] :=
        ⟨_, rfl⟩
      have hloop : readLoop f align start span lead need (fuel + 1) got buf log =
          if bytes.length = 0 ∨ base + bytes.length ≤ got then (.unexpectedEof, log')
          else readLoop f align start span lead need fuel (base + bytes.length)
            (writeAt buf base bytes) log' := by
        subst hlog' hbytes hbase
        exact if_neg hle
      have hpiece : IsPiece (f.bytes.drop start) base bytes := by
        rw [hbytes, File.pread, ← drop_drop]
        exact isPiece_take_drop
      have hlater : ∃ more, (readLoop f align start span lead need (fuel + 1) got buf log).2 =
          log' ++ more := by
        rw [hloop]
        split
        · exact ⟨[], by simp⟩
        · obtain ⟨more, hmore, -⟩ := readLoop_log hstart fuel (base + bytes.length)
            (writeAt buf base bytes) log'
          exact ⟨more, hmore⟩
      have hhonest : start + got < f.bytes.length → start + got < start + base + bytes.length := by
        obtain ⟨more, hmore⟩ := hlater
        refine hlog ⟨start + base, start + got, bytes.length⟩ ?_
        rw [hmore, hlog']
        simp
      rw [hloop] at hlog ⊢
      rw [← hbase] at hbelow
      by_cases hend : bytes.length = 0 ∨ base + bytes.length ≤ got
      · rw [if_pos hend, if_neg (by omega)]
      · rw [if_neg hend] at hlog ⊢
        have hne : bytes ≠ [] := ne_nil_of_length_pos (by omega)
        have hinside := hpiece.le_length hne
        rw [length_drop] at hinside
        have hkept : Holds buf (f.bytes.drop start) 0 base := hbuf.mono (Nat.le_refl 0) hbelow
        have hnext := hkept.extend (by rw [length_drop]; omega) hpiece
        exact ih (by omega) hinside hnext hlog

/-- What a positional read gives. -/
def expected (file : Bytes) (align len offset : Nat) : Outcome :=
  if len = 0 then .ok []
  else if overflows align len offset then .invalidInput
  else if offset + len ≤ file.length then .ok ((file.drop offset).take len)
  else .unexpectedEof

lemma readAlignedIn_spec (f : File) (align : Nat) (scratch : Bytes) (len offset : Nat)
    (hlog : Honest f (readAlignedIn f align scratch len offset).2) :
    (readAlignedIn f align scratch len offset).1 = expected f.bytes align len offset ∧
      ∀ p ∈ (readAlignedIn f align scratch len offset).2, align ∣ p.offset := by
  unfold readAlignedIn expected at *
  by_cases hlen : len = 0
  · rw [if_pos hlen, if_pos hlen]
    exact ⟨rfl, by simp⟩
  · rw [if_neg hlen] at hlog ⊢
    rw [if_neg hlen]
    by_cases hover : overflows align len offset
    · rw [if_pos hover, if_pos hover]
      exact ⟨rfl, by simp⟩
    · rw [if_neg hover] at hlog ⊢
      rw [if_neg hover]
      have hbelow := alignDown_le align offset
      have hneed : alignDown align offset + needOf align len offset = offset + len := by
        unfold needOf
        omega
      have hpos : 0 < needOf align len offset := by
        unfold needOf
        omega
      have hread := readLoop_spec (dvd_alignDown align offset) hpos (by omega) (Nat.zero_le _)
        (holds_nil (Nat.le_refl 0)) hlog
      obtain ⟨more, hmore, hall⟩ := @readLoop_log f align (alignDown align offset)
        (spanOf align len offset) (offset - alignDown align offset) (needOf align len offset)
        (dvd_alignDown align offset) (needOf align len offset) 0
        (sliceMut scratch (spanOf align len offset)) []
      have hslice : ((f.bytes.drop (alignDown align offset)).take (needOf align len offset)).drop
          (offset - alignDown align offset) = (f.bytes.drop offset).take len := by
        rw [drop_take, drop_drop]
        congr 1
        · unfold needOf
          omega
        · congr 1
          omega
      refine ⟨?_, ?_⟩
      · rw [hread, hneed, hslice]
      · rw [hmore]
        exact hall

end Positional

/-- Direct reading gives what plain reading does, from aligned transfers only. -/
theorem direct_reading_plain (f : File) (hlen : f.bytes.length < 2 ^ 64) (k cap : Nat)
    (isFile : Bool) : (∀ ops, Honest f (run f (fromOpened f cap (2 ^ k) isFile) ops).2.log →
      Plain f.bytes 0 false (run f (fromOpened f cap (2 ^ k) isFile) ops).1 ∧
      ∀ p ∈ (run f (fromOpened f cap (2 ^ k) isFile) ops).2.log, 2 ^ k ∣ p.offset) ∧
    ∀ scratch len offset, Honest f (readAlignedIn f (2 ^ k) scratch len offset).2 →
      (readAlignedIn f (2 ^ k) scratch len offset).1 = expected f.bytes (2 ^ k) len offset ∧
      ∀ p ∈ (readAlignedIn f (2 ^ k) scratch len offset).2, 2 ^ k ∣ p.offset := by
  have hlimit : f.bytes.length ≤ (fromOpened f cap (2 ^ k) isFile).readLimit := by
    unfold fromOpened
    cases isFile
    · simp only [Bool.false_eq_true, if_false]
      omega
    · simp
  have hopened : Stands f (fromOpened f cap (2 ^ k) isFile) 0 :=
    ⟨⟨Nat.two_pow_pos k, Nat.le_refl _, Nat.zero_le _, rfl, hlimit⟩, rfl, Nat.zero_le _,
      fun i hi => absurd hi (by simp [fromOpened, AlignedReadBuffer.unread])⟩
  constructor
  · intro ops hlog
    refine ⟨run_plain ops ⟨hopened, fun he => by cases he⟩ hlog, ?_⟩
    obtain ⟨-, more, hmore, hall⟩ := run_logged (f := f) ops (fromOpened f cap (2 ^ k) isFile)
    rw [hmore]
    exact hall
  · intro scratch len offset hlog
    exact readAlignedIn_spec f (2 ^ k) scratch len offset hlog

instance (f : File) (log : List Pread) : Decidable (Honest f log) := by
  unfold Honest
  exact inferInstance

/-- Ten bytes, of which a transfer brings five or seven. -/
def tenBytes : File where
  bytes := [0, 1, 2, 3, 4, 5, 6, 7, 8, 9]
  transfers i := if i % 2 = 0 then 5 else 7

theorem direct_reading_plain_short : Plain tenBytes.bytes 0 false
        (run tenBytes (fromOpened tenBytes 8 4 true) [.read 2, .skip 5, .read 9, .skip 1]).1 ∧
      (readAlignedIn tenBytes 4 [] 5 3).1 = expected tenBytes.bytes 4 5 3 := by
  obtain ⟨hrun, hread⟩ := direct_reading_plain tenBytes (by decide) 2 8 true
  exact ⟨(hrun [.read 2, .skip 5, .read 9, .skip 1] (by decide)).1, (hread [] 5 3 (by decide)).1⟩

/-- A range past 64 bits is refused as such, and behind a failed skip the reader skips inside the
file and then reads nothing there. -/
theorem direct_reading_not_plain : (readAlignedIn tenBytes 4 [] 1 (2 ^ 64 - 1)).1 = .invalidInput ∧
      tenBytes.bytes.length < 2 ^ 64 - 1 + 1 ∧
      (run tenBytes (fromOpened tenBytes 8 4 true) [.skip 12, .skip 4, .read 1]).1.map Prod.snd =
        [.pastEnd, .skipped, .bytes []] ∧ (tenBytes.bytes.drop 4).take 1 ≠ [] ∧
      tenBytes.bytes.length < tenBytes.bytes.length + 4 := by
  decide

end DirectReader
