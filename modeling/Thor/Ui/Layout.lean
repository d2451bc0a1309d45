import Thor.CLib.Pack
import Thor.Ui.Drawing
import Mathlib.Data.Finset.Prod
import Mathlib.Order.Interval.Finset.Nat

/-!
# How many modules take data (ui/qr_generator.c)

`getNumRawDataModules` counts the modules for codewords by a formula in the version, while
`drawCodewords` finds them on the symbol, by what `initializeFunctionModules` left white.
The assertion at the end of `drawCodewords` says that both are the same number of bytes.

- `card_uncovered`: rectangles that are apart from each other leave free what their areas do.
- `tiles`: the function modules again, cut into rectangles that are apart.
- `length_dataPlaces`: the formula is right, for every version.
-/

namespace Thor

open CLib

/-! ## Rectangles apart -/

def Rect.area (r : Rect) : Nat := r.width * r.height

/-- The rectangle is inside of a square. -/
def Rect.Fits (s : Nat) (r : Rect) : Prop := r.left + r.width ≤ s ∧ r.top + r.height ≤ s

instance Rect.decidableFits (s : Nat) (r : Rect) : Decidable (r.Fits s) :=
  inferInstanceAs (Decidable (_ ∧ _))

/-- One rectangle is beside the other, above or below. -/
def Rect.Apart (r r' : Rect) : Prop :=
  r.left + r.width ≤ r'.left ∨ r'.left + r'.width ≤ r.left ∨
    r.top + r.height ≤ r'.top ∨ r'.top + r'.height ≤ r.top

instance (r r' : Rect) : Decidable (r.Apart r') := inferInstanceAs (Decidable (_ ∨ _ ∨ _ ∨ _))

theorem Rect.Apart.not_has {r r' : Rect} (h : r.Apart r') {p : Nat × Nat} (hp : r.Has p) :
    ¬ r'.Has p := by
  simp only [Rect.Apart, Rect.Has] at *
  omega

/-- The modules of a rectangle. -/
def Rect.cells (r : Rect) : Finset (Nat × Nat) :=
  Finset.Ico r.left (r.left + r.width) ×ˢ Finset.Ico r.top (r.top + r.height)

theorem Rect.mem_cells {r : Rect} {p : Nat × Nat} : p ∈ r.cells ↔ r.Has p := by
  simp only [Rect.cells, Finset.mem_product, Finset.mem_Ico, Rect.Has]
  omega

theorem Rect.card_cells (r : Rect) : r.cells.card = r.area := by
  simp [Rect.cells, Rect.area]

/-- The modules of a square that are in no rectangle. -/
def uncovered (s : Nat) (rects : List Rect) : Finset (Nat × Nat) :=
  (Finset.range s ×ˢ Finset.range s).filter fun p => ∀ r ∈ rects, ¬ r.Has p

theorem card_uncovered {s : Nat} {rects : List Rect} (hin : ∀ r ∈ rects, r.Fits s)
    (hapart : rects.Pairwise Rect.Apart) :
    (uncovered s rects).card + total (rects.map Rect.area) = s * s := by
  induction rects with
  | nil => simp [uncovered, total]
  | cons r rects ih =>
    obtain ⟨hr, hapart⟩ := List.pairwise_cons.1 hapart
    have hrest := ih (fun r' hr' => hin r' (List.mem_cons_of_mem r hr')) hapart
    have hfits := hin r (List.mem_cons_self ..)
    -- the new rectangle takes modules that no other one has
    have hsub : r.cells ⊆ uncovered s rects := by
      intro p hp
      rw [Rect.mem_cells] at hp
      simp only [uncovered, Finset.mem_filter, Finset.mem_product, Finset.mem_range]
      refine ⟨?_, fun r' hr' => (hr r' hr').not_has hp⟩
      simp only [Rect.Has, Rect.Fits] at hp hfits
      omega
    have hcut : uncovered s (r :: rects) = uncovered s rects \ r.cells := by
      ext p
      simp only [uncovered, Finset.mem_filter, Finset.mem_sdiff, Rect.mem_cells,
        List.forall_mem_cons]
      tauto
    have hle := Finset.card_le_card hsub
    have hcells := r.card_cells
    rw [hcut, Finset.card_sdiff_of_subset hsub, List.map_cons, total]
    omega

/-! ## The function modules as tiles -/

/-- An alignment pattern without the timing line through it. -/
def alignmentTiles (version : Nat) (ij : Nat × Nat) : List Rect :=
  let c := alignmentCentre version ij
  if ij.2 = 0 then [⟨c.1 - 2, c.2 - 2, 5, 2⟩, ⟨c.1 - 2, c.2 + 1, 5, 2⟩]
  else if ij.1 = 0 then [⟨c.1 - 2, c.2 - 2, 2, 5⟩, ⟨c.1 + 1, c.2 - 2, 2, 5⟩]
  else [alignmentRect c]

/-- The function modules, each of them once. -/
def tiles (version : Nat) : List Rect :=
  let qrsize := version * 4 + 17
  [⟨0, 0, 9, 9⟩, ⟨qrsize - 8, 0, 8, 9⟩, ⟨0, qrsize - 8, 9, 8⟩, ⟨9, 6, qrsize - 17, 1⟩,
    ⟨6, 9, 1, qrsize - 17⟩] ++
  (alignmentPairs version).flatMap (alignmentTiles version) ++
  if version ≥ 7 then [⟨qrsize - 11, 0, 3, 6⟩, ⟨0, qrsize - 11, 6, 3⟩] else []

theorem tiles_apart {version : Nat} (h : IsVersion version) :
    (tiles version).Pairwise Rect.Apart ∧ (∀ r ∈ tiles version, r.Fits (version * 4 + 17)) ∧
      total ((tiles version).map Rect.area) + rawDataModules version =
        (version * 4 + 17) * (version * 4 + 17) := by
  have hall : ∀ v ≤ 40, 1 ≤ v → (tiles v).Pairwise Rect.Apart ∧
      (∀ r ∈ tiles v, r.Fits (v * 4 + 17)) ∧
      total ((tiles v).map Rect.area) + rawDataModules v = (v * 4 + 17) * (v * 4 + 17) := by
    decide +kernel
  exact hall version h.2 h.1

/-- Away from the corners the alignment patterns keep a distance from the edges. -/
theorem inner_bounds {version i : Nat} (h : IsVersion version) (hi : 1 ≤ i)
    (hi' : i + 1 < (getAlignmentPatternPositions version).length) :
    16 ≤ (getAlignmentPatternPositions version).getD i 0 ∧
      (getAlignmentPatternPositions version).getD i 0 + 19 ≤ version * 4 + 17 := by
  have hall : ∀ v ≤ 40, 1 ≤ v → ∀ p ∈ (getAlignmentPatternPositions v).tail.dropLast,
      16 ≤ p ∧ p + 19 ≤ v * 4 + 17 := by
    decide
  refine hall version h.2 h.1 _ ?_
  rw [List.getD_eq_getElem _ _ (by omega)]
  refine List.mem_iff_getElem.2 ⟨i - 1, by simp; omega, ?_⟩
  simp [Nat.sub_add_cancel hi]

/-- The first alignment position is that of the timing lines. -/
theorem first_position {version : Nat} (h : IsVersion version)
    (hne : 0 < (getAlignmentPatternPositions version).length) :
    (getAlignmentPatternPositions version).getD 0 0 = 6 := by
  have hall : ∀ v ≤ 40, 1 ≤ v → 0 < (getAlignmentPatternPositions v).length →
      (getAlignmentPatternPositions v).getD 0 0 = 6 := by
    decide
  exact hall version h.2 h.1 hne

theorem mem_alignmentPairs {version : Nat} {ij : Nat × Nat} :
    ij ∈ alignmentPairs version ↔ ij.1 < (getAlignmentPatternPositions version).length ∧
      ij.2 < (getAlignmentPatternPositions version).length ∧
      ¬ isFinderCorner (getAlignmentPatternPositions version).length ij.1 ij.2 := by
  simp only [alignmentPairs, List.mem_flatMap, List.mem_range]
  constructor
  · rintro ⟨i, hi, j, hj, hmem⟩
    split at hmem
    · simp at hmem
    · next hcorner =>
      rw [List.mem_singleton.1 hmem]
      exact ⟨hi, hj, hcorner⟩
  · rintro ⟨hi, hj, hcorner⟩
    exact ⟨ij.1, hi, ij.2, hj, by rw [if_neg hcorner]; exact List.mem_singleton.2 rfl⟩

/-- A pattern on a timing line: the line crosses it between the finders. -/
theorem centre_on_timing {version : Nat} (h : IsVersion version) {ij : Nat × Nat}
    (hij : ij ∈ alignmentPairs version) :
    (ij.2 = 0 → (alignmentCentre version ij).2 = 6 ∧ 16 ≤ (alignmentCentre version ij).1 ∧
      (alignmentCentre version ij).1 + 19 ≤ version * 4 + 17) ∧
    (ij.1 = 0 → (alignmentCentre version ij).1 = 6 ∧ 16 ≤ (alignmentCentre version ij).2 ∧
      (alignmentCentre version ij).2 + 19 ≤ version * 4 + 17) := by
  obtain ⟨hi, hj, hcorner⟩ := mem_alignmentPairs.1 hij
  simp only [isFinderCorner] at hcorner
  refine ⟨fun h0 => ?_, fun h0 => ?_⟩
  · have hinner := inner_bounds h (i := ij.1) (by omega) (by omega)
    refine ⟨?_, hinner⟩
    rw [alignmentCentre, h0]
    exact first_position h (by omega)
  · have hinner := inner_bounds h (i := ij.2) (by omega) (by omega)
    refine ⟨?_, hinner⟩
    rw [alignmentCentre, h0]
    exact first_position h (by omega)

/-- The tiles of a pattern have its modules, but for those of the timing lines. -/
theorem has_alignmentTiles {version : Nat} (h : IsVersion version) {ij p : Nat × Nat}
    (hij : ij ∈ alignmentPairs version) :
    (∃ r ∈ alignmentTiles version ij, r.Has p) ↔
      (alignmentRect (alignmentCentre version ij)).Has p ∧ (ij.2 = 0 → p.2 ≠ 6) ∧
        (ij.1 = 0 → p.1 ≠ 6) := by
  obtain ⟨hrow, hcol⟩ := centre_on_timing h hij
  have hcentre := centre_bounds h hij
  have hcorner := (mem_alignmentPairs.1 hij).2.2
  simp only [isFinderCorner] at hcorner
  simp only [alignmentTiles, alignmentRect]
  split_ifs with h2 h1
  · have hc := hrow h2
    simp only [List.mem_cons, List.not_mem_nil, or_false, exists_eq_or_imp, exists_eq_left,
      Rect.Has]
    omega
  · have hc := hcol h1
    simp only [List.mem_cons, List.not_mem_nil, or_false, exists_eq_or_imp, exists_eq_left,
      Rect.Has]
    omega
  · simp only [List.mem_singleton, exists_eq_left, h1, h2]
    tauto

theorem has_append {p : Nat × Nat} {l l' : List Rect} :
    (∃ r ∈ l ++ l', r.Has p) ↔ (∃ r ∈ l, r.Has p) ∨ ∃ r ∈ l', r.Has p := by
  simp only [List.mem_append, or_and_right, exists_or]

/-- The tiles are the function modules. -/
theorem isFunction_iff_tiles {version : Nat} (h : IsVersion version) {p : Nat × Nat} :
    IsFunction version p ↔ ∃ r ∈ tiles version, r.Has p := by
  have hside := isVersion_side h
  simp only [IsFunction, functionRects, tiles, has_append]
  refine or_congr ?_ Iff.rfl
  simp only [List.mem_cons, List.not_mem_nil, or_false, exists_eq_or_imp, exists_eq_left,
    List.mem_map, List.mem_flatMap]
  constructor
  · rintro (hfixed | ⟨r, ⟨ij, hij, rfl⟩, hp⟩)
    · left
      simp only [Rect.Has] at *
      omega
    · obtain ⟨hrow, hcol⟩ := centre_on_timing h hij
      by_cases htiming : (ij.2 = 0 → p.2 ≠ 6) ∧ (ij.1 = 0 → p.1 ≠ 6)
      · obtain ⟨r, hr, hpr⟩ := (has_alignmentTiles h hij).2 ⟨hp, htiming⟩
        exact .inr ⟨r, ⟨ij, hij, hr⟩, hpr⟩
      · -- on a timing line, between the finders
        left
        simp only [alignmentRect, Rect.Has] at *
        by_cases h2 : ij.2 = 0
        · have := hrow h2
          omega
        · have := hcol (by omega)
          omega
  · rintro (hfixed | ⟨r, ⟨ij, hij, hr⟩, hp⟩)
    · left
      simp only [Rect.Has] at *
      omega
    · have hsquare := (has_alignmentTiles h hij).1 ⟨r, hr, hp⟩
      exact .inr ⟨_, ⟨ij, hij, rfl⟩, hsquare.1⟩

/-! ## The modules for codewords -/

/-- The modules for codewords, in the order of `drawCodewords`. -/
def dataPlaces (version : Nat) : List (Nat × Nat) :=
  whiteOf (fun p => decide (IsFunction version p)) (zigzag (version * 4 + 17))

theorem mem_dataPlaces {version : Nat} (h : IsVersion version) {p : Nat × Nat} :
    p ∈ dataPlaces version ↔
      p.1 < version * 4 + 17 ∧ p.2 < version * 4 + 17 ∧ ¬ IsFunction version p := by
  have hside := isVersion_side h
  have hscan := mem_zigzag (s := version * 4 + 17) (p := p) (by omega) (by omega)
  simp only [dataPlaces, whiteOf, List.mem_filter, hscan, Bool.not_eq_true',
    decide_eq_false_iff_not]
  constructor
  · rintro ⟨⟨hx, hy, -⟩, hp⟩
    exact ⟨hx, hy, hp⟩
  · rintro ⟨hx, hy, hp⟩
    refine ⟨⟨hx, hy, fun h6 => hp ?_⟩, hp⟩
    -- the scan leaves out the column of the timing line, which has no data
    exact isFunction_of_has (r := ⟨6, 0, 1, version * 4 + 17⟩) (by simp [functionRects])
      ⟨by simp [h6], by simp [h6], by simp, by simpa using hy⟩

theorem nodup_dataPlaces {version : Nat} (h : IsVersion version) : (dataPlaces version).Nodup := by
  have hside := isVersion_side h
  exact (nodup_zigzag (by omega) (by omega)).filter _

/-- The formula of `getNumRawDataModules` counts the modules that are left white. -/
theorem length_dataPlaces {version : Nat} (h : IsVersion version) :
    (dataPlaces version).length = rawDataModules version := by
  obtain ⟨hapart, hin, harea⟩ := tiles_apart h
  have hcount := card_uncovered hin hapart
  have hset : (dataPlaces version).toFinset = uncovered (version * 4 + 17) (tiles version) := by
    ext p
    rw [List.mem_toFinset, mem_dataPlaces h, isFunction_iff_tiles h]
    simp only [uncovered, Finset.mem_filter, Finset.mem_product, Finset.mem_range]
    push Not
    tauto
  have hcard := List.toFinset_card_of_nodup (nodup_dataPlaces h)
  rw [hset] at hcard
  omega

/-- What the formula returns is the number of modules that `initializeFunctionModules` leaves
white, in whatever array it works. -/
theorem getNumRawDataModules_counts {version : Nat} (h : IsVersion version) {q : Bytes}
    (hroom : bufferLenForVersion version ≤ q.size) :
    Gives (initializeFunctionModules version q) fun q' => getNumRawDataModules version =
      some ((rowByRow (version * 4 + 17)).countP fun p => !pixelAt (version * 4 + 17) q' p) := by
  refine (initializeFunctionModules_gives h hroom).mono ?_
  rintro q' ⟨-, -, hpixels⟩
  -- the scan of `drawCodewords` and the one by rows see the same modules
  have hperm : ((rowByRow (version * 4 + 17)).filter fun p =>
      !pixelAt (version * 4 + 17) q' p).Perm (dataPlaces version) := by
    refine (List.perm_ext_iff_of_nodup ((nodup_rowByRow _).filter _) (nodup_dataPlaces h)).2 ?_
    intro p
    rw [List.mem_filter, mem_rowByRow, mem_dataPlaces h, hpixels]
    simp [and_assoc]
  rw [getNumRawDataModules_eq h, List.countP_eq_length_filter, hperm.length_eq,
    length_dataPlaces h]

/-- Version 7, which has six alignment patterns and two copies of its version, has 1568 of them,
also in an array that held ones before. -/
theorem getNumRawDataModules_counts_seven :
    Gives (initializeFunctionModules 7 (Array.replicate (bufferLenForVersion 7) 0xFF)) fun q' =>
      (rowByRow 45).countP (fun p => !pixelAt 45 q' p) = 1568 := by
  have hv : IsVersion 7 := ⟨by decide, by decide⟩
  refine (getNumRawDataModules_counts hv (by rw [Array.size_replicate])).mono ?_
  intro q' hq'
  have hvalue : getNumRawDataModules 7 = some 1568 := by decide
  exact Option.some.inj (hq'.symm.trans hvalue)

end Thor
