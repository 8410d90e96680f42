import Pbfhogg.Lib.FieldWalk

/-!
# Messages as lists of chunks

A chunk is one field of a message with the bytes of its tag. A well framed message is its chunks one
after the other, in one way only. A span walk records the value of each field with the byte range
the field takes.
-/

namespace Chunks

open Fallible FieldWalk List

variable {ε σ α : Type}

structure Chunk where
  number : Nat
  wire : Nat
  tag : Bytes
  raw : Bytes

namespace Chunk

def bytes (c : Chunk) : Bytes := c.tag ++ c.raw

def field (c : Chunk) : Field := ⟨c.number, c.wire, c.raw⟩

/-- The tag reads as the field's and the value ends where skipping it does. -/
structure Framed (R : Reader ε) (c : Chunk) : Prop where
  readTag : ∀ rest, R.readTag (c.tag ++ rest) = .ok (some (c.number, c.wire, rest))
  skipField : ∀ rest, R.skipField c.wire (c.raw ++ rest) = .ok rest

end Chunk

def join (cs : List Chunk) : Bytes := cs.flatMap Chunk.bytes

@[simp] lemma join_nil : join [] = [] := rfl

@[simp] lemma join_cons (c : Chunk) (cs : List Chunk) : join (c :: cs) = c.bytes ++ join cs :=
  flatMap_cons

@[simp] lemma join_append (cs ds : List Chunk) : join (cs ++ ds) = join cs ++ join ds :=
  flatMap_append

variable {R : Reader ε}

variable {c : Chunk} {cs : List Chunk}

lemma Chunk.framed_mapError {ε' : Type} {f : ε → ε'} : c.Framed (R.mapError f) ↔ c.Framed R := by
  constructor
  · intro h
    exact ⟨fun rest => mapError_eq_ok.mp (h.readTag rest),
      fun rest => mapError_eq_ok.mp (h.skipField rest)⟩
  · intro h
    exact ⟨fun rest => mapError_eq_ok.mpr (h.readTag rest),
      fun rest => mapError_eq_ok.mpr (h.skipField rest)⟩

lemma Chunk.Framed.bytes_ne_nil (h : c.Framed R) : c.bytes ≠ [] := by
  intro hnil
  have htag : c.tag = [] := (append_eq_nil_iff.mp hnil).1
  have hread := h.readTag []
  rw [htag, nil_append, R.readTag_eq_none.mpr rfl] at hread
  cases hread

lemma Chunk.Framed.fields_cons (h : c.Framed R) {rest : Bytes} {fs : List Field}
    (hrest : Fields R rest fs) : Fields R (c.bytes ++ rest) (c.field :: fs) := by
  refine .cons ?_ (h.skipField rest) hrest
  rw [Chunk.bytes, append_assoc]
  exact h.readTag _

lemma fields_join (h : ∀ c ∈ cs, c.Framed R) : Fields R (join cs) (cs.map Chunk.field) := by
  induction cs with
  | nil => exact .nil
  | cons c cs ih =>
    rw [join_cons, map_cons]
    exact (h c mem_cons_self).fields_cons (ih fun d hd => h d (mem_cons_of_mem _ hd))

/-- A parse of a chunked message is a fold over its fields. -/
theorem walk_join_iff {h : Handler ε σ} (hl : Local R h) {s t : σ} {cs : List Chunk}
    (hcs : ∀ c ∈ cs, c.Framed R) :
    walk R h s (join cs) = .ok t ↔ (cs.map Chunk.field).foldlM (absorb h) s = .ok t := by
  rw [walk_ok_iff hl]
  constructor
  · rintro ⟨fs, hfs, hfold⟩
    rwa [(fields_join hcs).unique hfs]
  · intro hfold
    exact ⟨_, fields_join hcs, hfold⟩

section Span

variable (R) (read : Nat → Nat → Bytes → Except ε (α × Bytes))
  (place : σ → α → Nat → Nat → Except ε σ)

/-- The loop of a span walk over `total` bytes, of which `data` is what is left. -/
def spanFuel (total : Nat) : Nat → σ → Bytes → Except ε σ
  | 0, s, _ => .ok s
  | fuel + 1, s, data =>
    match R.readTag data with
    | .error e => .error e
    | .ok none => .ok s
    | .ok (some (f, w, cur)) =>
      match read f w cur with
      | .error e => .error e
      | .ok (a, rest) =>
        match place s a (total - data.length) (total - rest.length) with
        | .error e => .error e
        | .ok s' => spanFuel total fuel s' rest

/-- Read the value of each field, and place it with the range the field takes. -/
def spanWalk (s : σ) (data : Bytes) : Except ε σ :=
  spanFuel R read place data.length data.length s data

def readChunk (c : Chunk) : Except ε α := (read c.number c.wire c.raw).map Prod.fst

/-- The chunks placed one after the other, from byte `pos` on. -/
def placeAll : σ → Nat → List Chunk → Except ε σ
  | s, _, [] => .ok s
  | s, pos, c :: cs =>
    match readChunk read c with
    | .error e => .error e
    | .ok a =>
      match place s a pos (pos + c.bytes.length) with
      | .error e => .error e
      | .ok s' => placeAll s' (pos + c.bytes.length) cs

variable {R read place}

lemma placeAll_cons_ok {s t : σ} {pos : Nat} :
    placeAll read place s pos (c :: cs) = .ok t ↔ ∃ a s', readChunk read c = .ok a ∧
      place s a pos (pos + c.bytes.length) = .ok s' ∧
        placeAll read place s' (pos + c.bytes.length) cs = .ok t := by
  rw [placeAll]
  constructor
  · intro h
    cases ha : readChunk read c with
    | error e => simp [ha] at h
    | ok a =>
      cases hp : place s a pos (pos + c.bytes.length) with
      | error e => simp [ha, hp] at h
      | ok s' =>
        simp only [ha, hp] at h
        exact ⟨a, s', rfl, hp, h⟩
  · rintro ⟨a, s', ha, hp, h⟩
    simp only [ha, hp, h]

lemma placeAll_append_ok {s t : σ} {pos : Nat} {ds : List Chunk} :
    placeAll read place s pos (cs ++ ds) = .ok t ↔ ∃ s', placeAll read place s pos cs = .ok s' ∧
      placeAll read place s' (pos + (join cs).length) ds = .ok t := by
  induction cs generalizing s pos with
  | nil => simp [placeAll]
  | cons c cs ih =>
    rw [cons_append, placeAll_cons_ok]
    constructor
    · rintro ⟨a, s₁, ha, hp, h⟩
      obtain ⟨s', hs', h⟩ := ih.mp h
      refine ⟨s', placeAll_cons_ok.mpr ⟨a, s₁, ha, hp, hs'⟩, ?_⟩
      rwa [join_cons, length_append, ← Nat.add_assoc]
    · rintro ⟨s', hs', h⟩
      obtain ⟨a, s₁, ha, hp, hs'⟩ := placeAll_cons_ok.mp hs'
      refine ⟨a, s₁, ha, hp, ih.mpr ⟨s', hs', ?_⟩⟩
      rwa [join_cons, length_append, ← Nat.add_assoc] at h

/-- Chunks that leave the state as it is. -/
theorem placeAll_idle {s : σ} {pos : Nat}
    (h : ∀ c ∈ cs, ∃ a, readChunk read c = .ok a ∧ ∀ start stop, place s a start stop = .ok s) :
    placeAll read place s pos cs = .ok s := by
  induction cs generalizing pos with
  | nil => rfl
  | cons c cs ih =>
    obtain ⟨a, ha, hp⟩ := h c mem_cons_self
    exact placeAll_cons_ok.mpr ⟨a, s, ha, hp _ _, ih fun d hd => h d (mem_cons_of_mem _ hd)⟩

lemma readChunk_ok (hl : ∀ f w, ReadsField R w (read f w)) (hc : c.Framed R) {a : α} :
    readChunk read c = .ok a ↔ ∀ rest, read c.number c.wire (c.raw ++ rest) = .ok (a, rest) := by
  constructor
  · intro h rest
    obtain ⟨⟨a', r⟩, hread, rfl⟩ := map_eq_ok.mp h
    obtain ⟨hskip, hlocal⟩ := hl _ _ hread
    have hend := hc.skipField []
    rw [append_nil, hskip] at hend
    cases hend
    exact hlocal c.raw (by simp) rest
  · intro h
    have hread := h []
    rw [append_nil] at hread
    rw [readChunk, hread]
    rfl

lemma readChunk_of_read (hl : ∀ f w, ReadsField R w (read f w)) (hc : c.Framed R) {a : α}
    {rest rest' : Bytes} (h : read c.number c.wire (c.raw ++ rest) = .ok (a, rest')) :
    readChunk read c = .ok a ∧ rest' = rest := by
  obtain ⟨hskip, hlocal⟩ := hl _ _ h
  rw [hc.skipField rest] at hskip
  cases hskip
  have hread := hlocal c.raw rfl []
  rw [append_nil] at hread
  refine ⟨?_, rfl⟩
  rw [readChunk, hread]
  rfl

lemma spanFuel_join (hl : ∀ f w, ReadsField R w (read f w)) (hcs : ∀ c ∈ cs, c.Framed R)
    {total fuel pos : Nat} {s t : σ} (htotal : total = pos + (join cs).length)
    (hfuel : (join cs).length ≤ fuel) : spanFuel R read place total fuel s (join cs) = .ok t ↔
      placeAll read place s pos cs = .ok t := by
  induction cs generalizing fuel pos s with
  | nil =>
    cases fuel with
    | zero => rfl
    | succ fuel =>
      rw [join_nil, spanFuel, R.readTag_eq_none.mpr rfl]
      rfl
  | cons c cs ih =>
    have hc := hcs c mem_cons_self
    have hlen : 0 < c.bytes.length := length_pos_iff.mpr hc.bytes_ne_nil
    rw [join_cons, length_append] at htotal hfuel
    obtain ⟨fuel, rfl⟩ : ∃ k, fuel = k + 1 := ⟨fuel - 1, by omega⟩
    have htag : R.readTag (join (c :: cs)) = .ok (some (c.number, c.wire, c.raw ++ join cs)) := by
      rw [join_cons, Chunk.bytes, append_assoc]
      exact hc.readTag _
    have hstart : total - (join (c :: cs)).length = pos := by
      rw [join_cons, length_append]
      omega
    have hend : total - (join cs).length = pos + c.bytes.length := by omega
    have hrec := @ih (fun d hd => hcs d (mem_cons_of_mem _ hd)) fuel (pos + c.bytes.length)
    rw [placeAll_cons_ok, spanFuel, htag]
    constructor
    · intro h
      cases hread : read c.number c.wire (c.raw ++ join cs) with
      | error e => simp [hread] at h
      | ok p =>
        obtain ⟨a, rest⟩ := p
        obtain ⟨hchunk, rfl⟩ := readChunk_of_read hl hc hread
        simp only [hread, hstart, hend] at h
        cases hp : place s a pos (pos + c.bytes.length) with
        | error e => simp [hp] at h
        | ok s' =>
          simp only [hp] at h
          exact ⟨a, s', hchunk, hp, (hrec (by omega) (by omega)).mp h⟩
    · rintro ⟨a, s', hchunk, hp, h⟩
      have hread := (readChunk_ok hl hc).mp hchunk (join cs)
      simp only [hread, hstart, hend, hp]
      exact (hrec (by omega) (by omega)).mpr h

/-- A span walk over a chunked message places its chunks. -/
theorem spanWalk_join (hl : ∀ f w, ReadsField R w (read f w)) (hcs : ∀ c ∈ cs, c.Framed R)
    {s t : σ} : spanWalk R read place s (join cs) = .ok t ↔ placeAll read place s 0 cs = .ok t :=
  spanFuel_join hl hcs (by omega) (Nat.le_refl _)

end Span

end Chunks
