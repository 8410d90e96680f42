import Pbfhogg.Lib.Csr
import Pbfhogg.Read.Columnar

/-!
# The region grid

`read/region_grid.rs` and the two collectors of `read/columnar.rs`. The grid lists for every cell of
the map the boxes that touch it. Cells are clamped to the map, for nodes and boxes alike, so a box
that holds a node lists its cell.
-/

namespace RegionGrid

open Columnar Csr List Option

def cellSize : Int := 1000000
def lonCells : Nat := 3600
def latCells : Nat := 1800
def numCells : Nat := lonCells * latCells
def gridMaxPairs : Nat := 256 * 1024 * 1024 / 4

/-- A box as `(min_lat, max_lat, min_lon, max_lon)`. -/
structure BBox where
  minLat : Int32
  maxLat : Int32
  minLon : Int32
  maxLon : Int32

/-- The exact test. -/
def BBox.hit (b : BBox) (lat lon : Int32) : Bool :=
  decide (b.minLat ≤ lat) && decide (lat ≤ b.maxLat) && decide (b.minLon ≤ lon) &&
    decide (lon ≤ b.maxLon)

/-- The cell of a coordinate along one axis, clamped to the last one. -/
def cellOn (offset : Int) (last : Nat) (x : Int32) : Nat :=
  (max 0 (min ((x.toInt + offset).tdiv cellSize) last)).toNat

def cellLon (lon : Int32) : Nat := cellOn 1800000000 3599 lon

def cellLat (lat : Int32) : Nat := cellOn 900000000 1799 lat

def cellOf (lat lon : Int32) : Nat := cellLat lat * lonCells + cellLon lon

variable (totalPairs : Nat)

def coverageIsWithinBudget : Bool :=
  decide (totalPairs ≤ gridMaxPairs) && decide (totalPairs ≤ 2 ^ 32 - 1)

/-- `first..=last`. -/
def upTo (first last : Nat) : List Nat := range' first (last + 1 - first)

variable (b : BBox)

/-- One more box counted against the budget. -/
def addCoverage : Option Nat :=
  if cellLon b.maxLon < cellLon b.minLon ∨ cellLat b.maxLat < cellLat b.minLat then none
  else
    let width := cellLon b.maxLon - cellLon b.minLon + 1
    let height := cellLat b.maxLat - cellLat b.minLat + 1
    if 2 ^ 64 ≤ totalPairs + width * height then none
    else if coverageIsWithinBudget (totalPairs + width * height) then
      some (totalPairs + width * height)
    else none

/-- The two inner loops over the cells of a box. -/
def forEachCell {σ : Type} (f : σ → Nat → σ) (s : σ) : σ :=
  (upTo (cellLat b.minLat) (cellLat b.maxLat)).foldl
    (fun s row => (upTo (cellLon b.minLon) (cellLon b.maxLon)).foldl
      (fun s col => f s (row * lonCells + col)) s) s

structure Grid where
  cellStarts : List Nat
  regionIndices : List Nat

/-- The counts of the cells, summed up. -/
def startsOf (bboxes : List BBox) : List Nat :=
  sums numCells (bboxes.foldl (fun xs b => forEachCell b (fun xs cell => bump xs (cell + 1)) xs)
    (replicate (numCells + 1) 0))

def indicesOf (bboxes : List BBox) : List Nat :=
  (bboxes.zipIdx.foldl (fun s p => forEachCell p.1 (fun s cell => place s (cell, p.2)) s)
    (startsOf bboxes, replicate totalPairs 0)).2

def build (bboxes : List BBox) : Option Grid := do
  let totalPairs ← bboxes.foldlM addCoverage 0
  if 2 ^ 32 < bboxes.length then none
  else some ⟨startsOf bboxes, indicesOf totalPairs bboxes⟩

def Grid.candidates (g : Grid) (lat lon : Int32) : List Nat :=
  slice g.cellStarts g.regionIndices (cellOf lat lon)

/-- `out[region].push(id)`, which panics past the end. -/
def push (out : List (List Int64)) (region : Nat) (id : Int64) : Option (List (List Int64)) :=
  if region < out.length then some (out.modify region (· ++ [id])) else none

/-- The id of a node that the box holds. -/
def pushHit (region : Nat) (n : Int64 × Int32 × Int32) (out : List (List Int64)) :
    Option (List (List Int64)) :=
  if b.hit n.2.1 n.2.2 then push out region n.1 else some out

variable (c : DenseNodeColumns)

/-- A row of the columns, as `(id, lat, lon)`. -/
def node (i : Nat) : Option (Int64 × Int32 × Int32) := do
  let lat ← c.lats[i]?
  let lon ← c.lons[i]?
  let id ← c.ids[i]?
  some (id, lat, lon)

def collectMatchingIdsMultiBbox (bboxes : List BBox)
    (out : List (List Int64)) : Option (List (List Int64)) :=
  (range c.len).foldlM (fun out i => do
    let n ← node c i
    bboxes.zipIdx.foldlM (fun out p => pushHit p.1 p.2 n out) out) out

def collectMatchingIdsMultiBboxGrid (bboxes : List BBox) (grid : Grid)
    (out : List (List Int64)) : Option (List (List Int64)) :=
  (range c.len).foldlM (fun out i => do
    let n ← node c i
    (grid.candidates n.2.1 n.2.2).foldlM (fun out region => do
      let b ← bboxes[region]?
      pushHit b region n out) out) out

lemma cellOn_le (offset : Int) (last : Nat) (x : Int32) : cellOn offset last x ≤ last := by
  unfold cellOn
  omega

lemma cellOn_mono (offset : Int) (last : Nat) {x y : Int32} (h : x ≤ y) :
    cellOn offset last x ≤ cellOn offset last y := by
  have hle : x.toInt + offset ≤ y.toInt + offset := by
    rw [Int32.le_iff_toInt_le] at h
    omega
  have hdiv : (x.toInt + offset).tdiv cellSize ≤ (y.toInt + offset).tdiv cellSize :=
    Int.tdiv_le_tdiv (by decide) hle
  unfold cellOn
  omega

lemma cellOf_lt (lat lon : Int32) : cellOf lat lon < numCells := by
  have hlat := cellOn_le 900000000 1799 lat
  have hlon := cellOn_le 1800000000 3599 lon
  unfold cellOf cellLat cellLon numCells lonCells latCells
  omega

lemma mem_upTo {first last i : Nat} : i ∈ upTo first last ↔ first ≤ i ∧ i ≤ last := by
  rw [upTo, mem_range'_1]
  omega

lemma nodup_upTo (first last : Nat) : (upTo first last).Nodup := nodup_range'

/-- The cells of a box, row by row. -/
def cells : List Nat :=
  (upTo (cellLat b.minLat) (cellLat b.maxLat)).flatMap fun row =>
    (upTo (cellLon b.minLon) (cellLon b.maxLon)).map fun col => row * lonCells + col

lemma forEachCell_eq {σ : Type} (f : σ → Nat → σ) (s : σ) :
    forEachCell b f s = (cells b).foldl f s := by
  rw [forEachCell, cells, foldl_flatMap]
  simp only [foldl_map]

lemma mem_cells {b : BBox} {cell : Nat} :
    cell ∈ cells b ↔ ∃ row col, (cellLat b.minLat ≤ row ∧ row ≤ cellLat b.maxLat) ∧
      (cellLon b.minLon ≤ col ∧ col ≤ cellLon b.maxLon) ∧ row * lonCells + col = cell := by
  simp only [cells, List.mem_flatMap, List.mem_map, mem_upTo]
  constructor
  · rintro ⟨row, hrow, col, hcol, h⟩
    exact ⟨row, col, hrow, hcol, h⟩
  · rintro ⟨row, col, hrow, hcol, h⟩
    exact ⟨row, hrow, col, hcol, h⟩

lemma nodup_cells : (cells b).Nodup := by
  rw [cells, nodup_flatMap]
  have hcol : ∀ col ∈ upTo (cellLon b.minLon) (cellLon b.maxLon), col < lonCells := by
    intro col hcol
    have hle := (mem_upTo.mp hcol).2
    have hlast := cellOn_le 1800000000 3599 b.maxLon
    unfold cellLon at hle
    unfold lonCells
    omega
  constructor
  · intro row _
    exact (nodup_upTo _ _).map fun x y h => by simpa using h
  · refine (nodup_upTo _ _).imp ?_
    intro row row' hne cell hmem hmem'
    obtain ⟨col, hin, rfl⟩ := mem_map.mp hmem
    obtain ⟨col', hin', h⟩ := mem_map.mp hmem'
    have hlt := hcol col hin
    have hlt' := hcol col' hin'
    unfold lonCells at *
    omega

lemma cells_lt {b : BBox} {cell : Nat} (h : cell ∈ cells b) : cell < numCells := by
  obtain ⟨row, col, ⟨-, hrow⟩, ⟨-, hcol⟩, rfl⟩ := mem_cells.mp h
  have hlat := cellOn_le 900000000 1799 b.maxLat
  have hlon := cellOn_le 1800000000 3599 b.maxLon
  unfold cellLat at hrow
  unfold cellLon at hcol
  unfold numCells lonCells latCells
  omega

/-- A box that holds a point covers its cell. -/
theorem cellOf_mem_cells {b : BBox} {lat lon : Int32} (h : b.hit lat lon = true) :
    cellOf lat lon ∈ cells b := by
  simp only [BBox.hit, Bool.and_eq_true, decide_eq_true_eq] at h
  obtain ⟨⟨⟨h1, h2⟩, h3⟩, h4⟩ := h
  exact mem_cells.mpr ⟨_, _, ⟨cellOn_mono _ _ h1, cellOn_mono _ _ h2⟩,
    ⟨cellOn_mono _ _ h3, cellOn_mono _ _ h4⟩, rfl⟩

/-- Cells and the boxes that cover them, in the order the grid is filled. -/
def pairs (bboxes : List (BBox × Nat)) : List (Nat × Nat) :=
  bboxes.flatMap fun p => (cells p.1).map fun cell => (cell, p.2)

lemma row_pairs (bboxes : List (BBox × Nat)) (cell : Nat) :
    row (pairs bboxes) cell = (bboxes.filter fun p => decide (cell ∈ cells p.1)).map Prod.snd := by
  induction bboxes with
  | nil => rfl
  | cons p bboxes ih =>
    have hsplit : pairs (p :: bboxes) = (cells p.1).map (fun cell => (cell, p.2)) ++ pairs bboxes :=
      rfl
    have hone : row ((cells p.1).map fun cell => (cell, p.2)) cell =
        if cell ∈ cells p.1 then [p.2] else [] := by
      have hcount := nodup_cells p.1
      have hmap : row ((cells p.1).map fun cell => (cell, p.2)) cell =
          ((cells p.1).filter (· == cell)).map fun _ => p.2 := by
        simp [row, List.filter_map, Function.comp_def]
      rw [hmap, List.filter_beq, hcount.count]
      split <;> rfl
    rw [hsplit, row_append, hone, ih, filter_cons]
    by_cases h : cell ∈ cells p.1 <;> simp [h]

lemma length_cells {b : BBox} (hlon : cellLon b.minLon ≤ cellLon b.maxLon)
    (hlat : cellLat b.minLat ≤ cellLat b.maxLat) :
    (cells b).length = (cellLon b.maxLon - cellLon b.minLon + 1) *
      (cellLat b.maxLat - cellLat b.minLat + 1) := by
  have hwidth : cellLon b.maxLon + 1 - cellLon b.minLon =
      cellLon b.maxLon - cellLon b.minLon + 1 := by omega
  have hheight : cellLat b.maxLat + 1 - cellLat b.minLat =
      cellLat b.maxLat - cellLat b.minLat + 1 := by omega
  rw [cells, length_flatMap]
  simp only [length_map, upTo, length_range', map_const', sum_replicate_nat, hwidth, hheight]
  rw [Nat.mul_comm]

variable {bboxes : List BBox}

/-- The counted coverage is the number of pairs. -/
theorem coverage_eq {start total k : Nat} (h : bboxes.foldlM addCoverage start = some total) :
    total = start + (pairs (bboxes.zipIdx k)).length := by
  induction bboxes generalizing start k with
  | nil =>
    cases h
    rfl
  | cons b bboxes ih =>
    rw [foldlM_cons, bind_eq_bind, bind_eq_some_iff] at h
    obtain ⟨mid, hmid, h⟩ := h
    have hcells : mid = start + (cells b).length := by
      unfold addCoverage at hmid
      split at hmid
      · cases hmid
      · next hspan =>
        have hlength := @length_cells b (by omega) (by omega)
        simp only at hmid
        split at hmid
        · cases hmid
        · split at hmid
          · cases hmid
            rw [hlength]
          · cases hmid
    have htail : total = mid + (pairs (bboxes.zipIdx (k + 1))).length := ih h
    rw [htail, hcells, zipIdx_cons]
    simp only [pairs, flatMap_cons, length_append, length_map]
    omega

lemma startsOf_eq (bboxes : List BBox) :
    startsOf bboxes = sums numCells (counts numCells ((pairs bboxes.zipIdx).map Prod.fst)) := by
  have hrows : (pairs bboxes.zipIdx).map Prod.fst = bboxes.flatMap cells := by
    have hall : ∀ k, (pairs (bboxes.zipIdx k)).map Prod.fst = bboxes.flatMap cells := by
      induction bboxes with
      | nil => intro k; rfl
      | cons b bboxes ih =>
        intro k
        simp only [List.zipIdx_cons, pairs, List.flatMap_cons, List.map_append, List.map_map]
        rw [← ih (k + 1)]
        simp [pairs, Function.comp_def]
    exact hall 0
  rw [startsOf, hrows, counts, foldl_flatMap]
  simp only [forEachCell_eq]

lemma indicesOf_eq (bboxes : List BBox) :
    indicesOf totalPairs bboxes = ((pairs bboxes.zipIdx).foldl place
      (startsOf bboxes, replicate totalPairs 0)).2 := by
  rw [indicesOf, pairs, foldl_flatMap]
  simp only [forEachCell_eq, foldl_map]

lemma pairs_lt {bboxes : List (BBox × Nat)} : ∀ e ∈ pairs bboxes, e.1 < numCells := by
  intro e he
  obtain ⟨p, -, he⟩ := mem_flatMap.mp he
  obtain ⟨cell, hcell, rfl⟩ := mem_map.mp he
  exact cells_lt hcell

/-- The candidates of a point are the boxes that cover its cell, in order. -/
theorem candidates_eq {grid : Grid} (h : build bboxes = some grid) (lat lon : Int32) :
    grid.candidates lat lon =
      (bboxes.zipIdx.filter fun p => decide (cellOf lat lon ∈ cells p.1)).map Prod.snd := by
  rw [build, bind_eq_bind, bind_eq_some_iff] at h
  obtain ⟨total, htotal, h⟩ := h
  split at h
  · cases h
  · rw [some.injEq] at h
    subst h
    have hlength : total = (pairs bboxes.zipIdx).length :=
      (coverage_eq htotal).trans (Nat.zero_add _)
    have hslice := @slice_eq_row _ _ (pairs bboxes.zipIdx) pairs_lt 0 _ (cellOf_lt lat lon)
    simp only at hslice
    rw [Grid.candidates, indicesOf_eq, startsOf_eq, hlength, hslice, row_pairs]

/-- Entries that leave the state as it is can be left out of a loop. -/
theorem foldlM_filter {α σ : Type} {p : α → Bool} {f : σ → α → Option σ} {xs : List α}
    (h : ∀ x ∈ xs, p x = false → ∀ s, f s x = some s) (s : σ) :
    (xs.filter p).foldlM f s = xs.foldlM f s := by
  induction xs generalizing s with
  | nil => rfl
  | cons x xs ih =>
    rw [forall_mem_cons] at h
    rw [filter_cons, foldlM_cons]
    split
    · rw [foldlM_cons]
      congr 1
      funext s'
      exact ih h.2 s'
    · next hp =>
      rw [h.1 (by simpa using hp) s, bind_eq_bind, bind_some]
      exact ih h.2 s

/-- The candidates of a node do what all boxes do. -/
theorem candidates_foldlM {grid : Grid} (h : build bboxes = some grid) (n : Int64 × Int32 × Int32)
    (out : List (List Int64)) :
    (grid.candidates n.2.1 n.2.2).foldlM (fun out region => do
      let b ← bboxes[region]?
      pushHit b region n out) out =
      bboxes.zipIdx.foldlM (fun out p => pushHit p.1 p.2 n out) out := by
  have hmiss : ∀ p ∈ bboxes.zipIdx, decide (cellOf n.2.1 n.2.2 ∈ cells p.1) = false →
      ∀ out, pushHit p.1 p.2 n out = some out := by
    intro p _ hcell out
    have hhit : p.1.hit n.2.1 n.2.2 = false := by
      by_contra hne
      exact of_decide_eq_false hcell (cellOf_mem_cells (Bool.eq_true_of_not_eq_false hne))
    rw [pushHit, hhit]
    rfl
  rw [candidates_eq h, foldlM_map, ← foldlM_filter hmiss]
  have hget : ∀ p ∈ bboxes.zipIdx.filter fun p => decide (cellOf n.2.1 n.2.2 ∈ cells p.1),
      bboxes[p.2]? = some p.1 := by
    intro p hp
    exact mem_zipIdx_iff_getElem?.mp (mem_filter.mp hp).1
  generalize bboxes.zipIdx.filter (fun p => decide (cellOf n.2.1 n.2.2 ∈ cells p.1)) = ps at hget
  induction ps generalizing out with
  | nil => rfl
  | cons p ps ih =>
    rw [forall_mem_cons] at hget
    have hone : (do
        let b ← bboxes[p.2]?
        pushHit b p.2 n out) = pushHit p.1 p.2 n out := by
      rw [hget.1]
      rfl
    rw [foldlM_cons, foldlM_cons, hone]
    congr 1
    funext out'
    exact ih out' hget.2

/-- The grid collects what the linear scan does, for every region in the same order. -/
theorem region_grid_exact {bboxes : List BBox} {grid : Grid} (h : build bboxes = some grid)
    (c : DenseNodeColumns) (out : List (List Int64)) :
    collectMatchingIdsMultiBboxGrid c bboxes grid out = collectMatchingIdsMultiBbox c bboxes out := by
  rw [collectMatchingIdsMultiBboxGrid, collectMatchingIdsMultiBbox]
  congr 1
  funext out i
  congr 1
  funext n
  exact candidates_foldlM h n out

/-- Boxes within the budget have a grid. -/
theorem exists_build {total : Nat} (htotal : bboxes.foldlM addCoverage 0 = some total)
    (hlen : bboxes.length ≤ 2 ^ 32) : ∃ grid, build bboxes = some grid := by
  refine ⟨⟨startsOf bboxes, indicesOf total bboxes⟩, ?_⟩
  rw [build, htotal, bind_eq_bind, bind_some, if_neg (by omega)]

/-- A box of one point on the corner of four cells, and one that runs past the map. -/
def cornerBoxes : List BBox :=
  [⟨1000000, 1000000, 2000000, 2000000⟩, ⟨899000000, 2000000000, 1799000000, 2100000000⟩]

theorem region_grid_exact_corner :
    ∃ grid, build cornerBoxes = some grid ∧
      let c : DenseNodeColumns := ⟨[7, 8], [1000000, 1900000000], [2000000, 1800000000]⟩
      collectMatchingIdsMultiBboxGrid c cornerBoxes grid [[], []] = some [[7], [8]] := by
  have htotal : ∃ total, cornerBoxes.foldlM addCoverage 0 = some total := ⟨_, rfl⟩
  obtain ⟨total, htotal⟩ := htotal
  obtain ⟨grid, hgrid⟩ := exists_build htotal (by decide)
  exact ⟨grid, hgrid, (region_grid_exact hgrid _ _).trans rfl⟩

end RegionGrid
