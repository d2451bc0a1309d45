import Thor.Ui.Modules
import Mathlib.Tactic.SplitIfs

/-!
# Function modules (ui/qr_generator.c)

The modules of a symbol that do not depend on the data: the finders in three corners, the
timing lines, the alignment patterns, and the places for the format and for the version.

- `initializeFunctionModules`: all of them black. `drawWhiteFunctionModules`: the white ones
  among them, with the version. `drawFormatBits`: level and mask, twice.
-/

namespace Thor

open CLib

def fillRectangle (left top width height : Nat) (qrcode : Bytes) : Option Bytes :=
  loop height (fun dy qrcode =>
    loop width (fun dx qrcode => setModule qrcode (left + dx) (top + dy) true) qrcode) qrcode

/-- The loop down to index 1, over `i` and `pos`; the entries behind `i` are `result`. -/
def alignmentLoop (step : Nat) : Nat → Nat → List Nat → List Nat
  | 0, _, result => 6 :: result
  | i + 1, pos, result => alignmentLoop step i (pos - step) (pos :: result)

/-- The entries of `result`, as many as the return value of the source says. -/
def getAlignmentPatternPositions (version : Nat) : List Nat :=
  if version = 1 then []
  else
    let numAlign := version / 7 + 2
    let step :=
      if version = 32 then 26 else (version * 4 + numAlign * 2 + 1) / (numAlign * 2 - 2) * 2
    alignmentLoop step (numAlign - 1) (version * 4 + 10) []

/-- The three corners with finders have no alignment pattern. -/
def isFinderCorner (numAlign i j : Nat) : Prop :=
  (i = 0 ∧ j = 0) ∨ (i = 0 ∧ j + 1 = numAlign) ∨ (i + 1 = numAlign ∧ j = 0)

instance (numAlign i j : Nat) : Decidable (isFinderCorner numAlign i j) :=
  inferInstanceAs (Decidable (_ ∨ _))

/-- The rectangles of `initializeFunctionModules`, in its order. -/
def fillFunctionModules (version : Nat) (qrcode : Bytes) : Option Bytes := do
  let qrsize := version * 4 + 17
  let qrcode ← fillRectangle 6 0 1 qrsize qrcode
  let qrcode ← fillRectangle 0 6 qrsize 1 qrcode
  let qrcode ← fillRectangle 0 0 9 9 qrcode
  let qrcode ← fillRectangle (qrsize - 8) 0 8 9 qrcode
  let qrcode ← fillRectangle 0 (qrsize - 8) 9 8 qrcode
  let alignPatPos := getAlignmentPatternPositions version
  let numAlign := alignPatPos.length
  let qrcode ← loop numAlign (fun i qrcode =>
    loop numAlign (fun j qrcode =>
      if isFinderCorner numAlign i j then some qrcode
      else fillRectangle (alignPatPos.getD i 0 - 2) (alignPatPos.getD j 0 - 2) 5 5 qrcode) qrcode)
    qrcode
  if version ≥ 7 then do
    let qrcode ← fillRectangle (qrsize - 11) 0 3 6 qrcode
    fillRectangle 0 (qrsize - 11) 6 3 qrcode
  else some qrcode

def initializeFunctionModules (version : Nat) (qrcode : Bytes) : Option Bytes := do
  let qrsize := version * 4 + 17
  let qrcode ← memset qrcode 0 ((qrsize * qrsize + 7) / 8 + 1)
  let qrcode ← store qrcode 0 (BitVec.ofNat 8 qrsize)
  fillFunctionModules version qrcode

/-- The version with its check bits. -/
def versionBits (version : Nat) : Nat :=
  let rem := (List.range 12).foldl (fun rem _ => (rem <<< 1) ^^^ ((rem >>> 11) * 0x1F25)) version
  (version <<< 12) ||| rem

def drawWhiteFunctionModules (qrcode : Bytes) (version : Nat) : Option Bytes := do
  let qrsize ← getSize qrcode
  -- every second module of the timing lines, between the finders
  let qrcode ← loop ((qrsize - 7 - 7 + 1) / 2) (fun k qrcode => do
    let i := 7 + 2 * k
    let qrcode ← setModule qrcode 6 i false
    setModule qrcode i 6 false) qrcode
  let qrcode ← loop 9 (fun j qrcode =>
    loop 9 (fun i qrcode => do
      let dy : Int := j - 4
      let dx : Int := i - 4
      let dist := max dx.natAbs dy.natAbs
      if dist = 2 ∨ dist = 4 then do
        let qrcode ← setModuleBounded qrcode (3 + dx) (3 + dy) false
        let qrcode ← setModuleBounded qrcode (qrsize - 4 + dx) (3 + dy) false
        setModuleBounded qrcode (3 + dx) (qrsize - 4 + dy) false
      else some qrcode) qrcode) qrcode
  let alignPatPos := getAlignmentPatternPositions version
  let numAlign := alignPatPos.length
  let qrcode ← loop numAlign (fun i qrcode =>
    loop numAlign (fun j qrcode =>
      if isFinderCorner numAlign i j then some qrcode
      else
        loop 3 (fun dy qrcode =>
          loop 3 (fun dx qrcode =>
            setModule qrcode (alignPatPos.getD i 0 + dx - 1) (alignPatPos.getD j 0 + dy - 1)
              (dx = 1 ∧ dy = 1)) qrcode) qrcode) qrcode) qrcode
  if version ≥ 7 then do
    let bits := versionBits version
    assert (bits >>> 18 = 0)
    loop 6 (fun i qrcode =>
      loop 3 (fun j qrcode => do
        let k := qrsize - 11 + j
        let qrcode ← setModule qrcode k i (getBit bits (3 * i + j))
        setModule qrcode i k (getBit bits (3 * i + j))) qrcode) qrcode
  else some qrcode

/-- The entry of `table` in `drawFormatBits`. -/
def Ecc.formatBits : Ecc → Nat
  | low => 1
  | medium => 0
  | quartile => 3
  | high => 2

/-- Level and mask with their check bits. -/
def formatWord (ecl : Ecc) (mask : Nat) : Nat :=
  let data := (ecl.formatBits <<< 3) ||| mask
  let rem := (List.range 10).foldl (fun rem _ => (rem <<< 1) ^^^ ((rem >>> 9) * 0x537)) data
  ((data <<< 10) ||| rem) ^^^ 0x5412

def drawFormatBits (ecl : Ecc) (mask : Nat) (qrcode : Bytes) : Option Bytes := do
  assert (mask ≤ 7)
  let bits := formatWord ecl mask
  assert (bits >>> 15 = 0)
  -- the first copy, around the first finder
  let qrcode ← loop 6 (fun i qrcode => setModule qrcode 8 i (getBit bits i)) qrcode
  let qrcode ← setModule qrcode 8 7 (getBit bits 6)
  let qrcode ← setModule qrcode 8 8 (getBit bits 7)
  let qrcode ← setModule qrcode 7 8 (getBit bits 8)
  let qrcode ← loop 6 (fun k qrcode => setModule qrcode (14 - (9 + k)) 8 (getBit bits (9 + k))) qrcode
  -- the second copy, beside the other two
  let qrsize ← getSize qrcode
  let qrcode ← loop 8 (fun i qrcode => setModule qrcode (qrsize - 1 - i) 8 (getBit bits i)) qrcode
  let qrcode ← loop 7 (fun k qrcode =>
    setModule qrcode 8 (qrsize - 15 + (8 + k)) (getBit bits (8 + k))) qrcode
  setModule qrcode 8 (qrsize - 8) true

/-! ## Rectangles -/

/-- A rectangle of modules, by its upper left corner. -/
structure Rect where
  left : Nat
  top : Nat
  width : Nat
  height : Nat

/-- A module is in the rectangle. -/
def Rect.Has (r : Rect) (p : Nat × Nat) : Prop :=
  r.left ≤ p.1 ∧ p.1 < r.left + r.width ∧ r.top ≤ p.2 ∧ p.2 < r.top + r.height

instance (r : Rect) (p : Nat × Nat) : Decidable (r.Has p) :=
  inferInstanceAs (Decidable (_ ∧ _ ∧ _ ∧ _))

/-- The modules of a rectangle, all black. -/
def Rect.writes (r : Rect) : List ((Nat × Nat) × Bool) :=
  (List.range r.height).flatMap fun dy =>
    (List.range r.width).flatMap fun dx => [((r.left + dx, r.top + dy), true)]

theorem Rect.mem_writes {r : Rect} {w : (Nat × Nat) × Bool} :
    w ∈ r.writes ↔ r.Has w.1 ∧ w.2 = true := by
  obtain ⟨⟨x, y⟩, c⟩ := w
  simp only [Rect.writes, List.mem_flatMap, List.mem_range, List.mem_singleton, Prod.mk.injEq,
    Rect.Has]
  constructor
  · rintro ⟨dy, hdy, dx, hdx, ⟨rfl, rfl⟩, rfl⟩
    refine ⟨⟨?_, ?_, ?_, ?_⟩, rfl⟩ <;> omega
  · rintro ⟨⟨h1, h2, h3, h4⟩, rfl⟩
    refine ⟨y - r.top, by omega, x - r.left, by omega, ⟨?_, ?_⟩, rfl⟩ <;> omega

theorem fillRectangle_gives {s : Nat} {q : Bytes} (h : IsSymbol s q) (r : Rect)
    (hx : r.left + r.width ≤ s) (hy : r.top + r.height ≤ s) :
    Gives (fillRectangle r.left r.top r.width r.height q) fun q' => Drawn s q q' r.writes :=
  drawn_loop h fun dy hdy q hq => drawn_loop hq fun dx hdx q hq =>
    setModule_gives hq (by omega) (by omega) true

/-! ## The alignment patterns -/

/-- The positions are inside of the symbol, away from its edges. -/
theorem alignment_bounds {version : Nat} (h : IsVersion version) {p : Nat}
    (hp : p ∈ getAlignmentPatternPositions version) : 6 ≤ p ∧ p + 7 ≤ version * 4 + 17 := by
  have hall : ∀ v ≤ 40, 1 ≤ v → ∀ p ∈ getAlignmentPatternPositions v, 6 ≤ p ∧ p + 7 ≤ v * 4 + 17 := by
    decide
  exact hall version h.2 h.1 p hp

/-- The pairs of indices that have an alignment pattern. -/
def alignmentPairs (version : Nat) : List (Nat × Nat) :=
  let numAlign := (getAlignmentPatternPositions version).length
  (List.range numAlign).flatMap fun i => (List.range numAlign).flatMap fun j =>
    if isFinderCorner numAlign i j then [] else [(i, j)]

/-- The centre of an alignment pattern. -/
def alignmentCentre (version : Nat) (ij : Nat × Nat) : Nat × Nat :=
  ((getAlignmentPatternPositions version).getD ij.1 0,
    (getAlignmentPatternPositions version).getD ij.2 0)

/-- The square of an alignment pattern. -/
def alignmentRect (c : Nat × Nat) : Rect := ⟨c.1 - 2, c.2 - 2, 5, 5⟩

/-- The rectangles of the function modules. -/
def functionRects (version : Nat) : List Rect :=
  let qrsize := version * 4 + 17
  [⟨6, 0, 1, qrsize⟩, ⟨0, 6, qrsize, 1⟩, ⟨0, 0, 9, 9⟩, ⟨qrsize - 8, 0, 8, 9⟩,
    ⟨0, qrsize - 8, 9, 8⟩] ++
  ((alignmentPairs version).map fun ij => alignmentRect (alignmentCentre version ij)) ++
  if version ≥ 7 then [⟨qrsize - 11, 0, 3, 6⟩, ⟨0, qrsize - 11, 6, 3⟩] else []

/-- A function module of the symbols of a version. -/
def IsFunction (version : Nat) (p : Nat × Nat) : Prop := ∃ r ∈ functionRects version, r.Has p

instance (version : Nat) (p : Nat × Nat) : Decidable (IsFunction version p) :=
  List.decidableBEx _ _

theorem centre_bounds {version : Nat} (h : IsVersion version) {ij : Nat × Nat}
    (hij : ij ∈ alignmentPairs version) :
    6 ≤ (alignmentCentre version ij).1 ∧ (alignmentCentre version ij).1 + 7 ≤ version * 4 + 17 ∧
      6 ≤ (alignmentCentre version ij).2 ∧ (alignmentCentre version ij).2 + 7 ≤ version * 4 + 17 := by
  simp only [alignmentPairs, List.mem_flatMap, List.mem_range] at hij
  obtain ⟨i, hi, j, hj, hmem⟩ := hij
  have hmem : ij = (i, j) := by
    split at hmem
    · simp at hmem
    · exact List.mem_singleton.1 hmem
  have hget : ∀ {k}, k < (getAlignmentPatternPositions version).length →
      (getAlignmentPatternPositions version).getD k 0 ∈ getAlignmentPatternPositions version := by
    intro k hk
    rw [List.getD_eq_getElem _ _ hk]
    exact List.getElem_mem hk
  have h1 := alignment_bounds h (hget hi)
  have h2 := alignment_bounds h (hget hj)
  rw [hmem]
  exact ⟨h1.1, h1.2, h2.1, h2.2⟩

/-- A loop over the pairs, which draws at an alignment pattern only. -/
theorem alignment_loop_gives {s version : Nat} {q : Bytes} (h : IsSymbol s q)
    {draw : Nat → Nat → Bytes → Option Bytes} {ws : Nat × Nat → List ((Nat × Nat) × Bool)}
    (hdraw : ∀ ij ∈ alignmentPairs version, ∀ q, IsSymbol s q →
      Gives (draw ij.1 ij.2 q) fun q' => Drawn s q q' (ws ij)) :
    Gives (loop (getAlignmentPatternPositions version).length (fun i qrcode =>
      loop (getAlignmentPatternPositions version).length (fun j qrcode =>
        if isFinderCorner (getAlignmentPatternPositions version).length i j then some qrcode
        else draw i j qrcode) qrcode) q)
      fun q' => Drawn s q q' ((alignmentPairs version).flatMap ws) := by
  have hflat : (alignmentPairs version).flatMap ws =
      (List.range (getAlignmentPatternPositions version).length).flatMap fun i =>
        (List.range (getAlignmentPatternPositions version).length).flatMap fun j =>
          if isFinderCorner (getAlignmentPatternPositions version).length i j then []
          else ws (i, j) := by
    simp only [alignmentPairs, List.flatMap_assoc]
    refine List.flatMap_congr fun i _ => List.flatMap_congr fun j _ => ?_
    split <;> simp
  rw [hflat]
  refine drawn_loop h fun i hi q hq => drawn_loop hq fun j hj q hq => ?_
  by_cases hcorner : isFinderCorner (getAlignmentPatternPositions version).length i j
  · rw [if_pos hcorner, if_pos hcorner]
    exact gives_some (Drawn.refl s q)
  · rw [if_neg hcorner, if_neg hcorner]
    refine hdraw (i, j) ?_ q hq
    simp only [alignmentPairs, List.mem_flatMap, List.mem_range]
    exact ⟨i, hi, j, hj, by rw [if_neg hcorner]; exact List.mem_singleton.2 rfl⟩

/-! ## All of them black -/

/-- A cleared array with the size of a symbol has a white symbol. -/
theorem cleared_gives {s : Nat} {q : Bytes} (h21 : 21 ≤ s) (h177 : s ≤ 177)
    (hroom : (s * s + 7) / 8 + 1 ≤ q.size) :
    Gives (do
      let qrcode ← memset q 0 ((s * s + 7) / 8 + 1)
      store qrcode 0 (BitVec.ofNat 8 s)) fun q' =>
      IsSymbol s q' ∧ q'.size = q.size ∧ ∀ p, pixelAt s q' p = false := by
  rw [memset_eq _ hroom, some_bind, store_eq _ (by simp; omega)]
  refine gives_some ⟨⟨?_, h21, h177, by simpa using hroom⟩, by simp, fun p => ?_⟩
  · rw [octetAt_set _ (by simp; omega), if_pos rfl]
  · rw [pixelAt]
    split
    · have hlt := index_lt (s := s) (x := p.1) (y := p.2) (by omega) (by omega)
      rw [cellAt, octetAt_set _ (by simp; omega), if_neg (by omega), octetAt_memset _ hroom,
        if_pos (by omega)]
      simp
    · rfl

theorem isVersion_side {version : Nat} (h : IsVersion version) :
    21 ≤ version * 4 + 17 ∧ version * 4 + 17 ≤ 177 := by
  have h1 : 1 ≤ version := h.1
  have h2 : version ≤ 40 := h.2
  omega

theorem fillFunctionModules_gives {version : Nat} (h : IsVersion version) {q : Bytes}
    (hq : IsSymbol (version * 4 + 17) q) :
    Gives (fillFunctionModules version q) fun q' =>
      Drawn (version * 4 + 17) q q' ((functionRects version).flatMap Rect.writes) := by
  have hside := isVersion_side h
  have hfill := fun (r : Rect) (hx : r.left + r.width ≤ version * 4 + 17)
    (hy : r.top + r.height ≤ version * 4 + 17) (q : Bytes)
    (hq : IsSymbol (version * 4 + 17) q) => fillRectangle_gives hq r hx hy
  have hws : (functionRects version).flatMap Rect.writes =
      Rect.writes ⟨6, 0, 1, version * 4 + 17⟩ ++ (Rect.writes ⟨0, 6, version * 4 + 17, 1⟩ ++
      (Rect.writes ⟨0, 0, 9, 9⟩ ++ (Rect.writes ⟨version * 4 + 17 - 8, 0, 8, 9⟩ ++
      (Rect.writes ⟨0, version * 4 + 17 - 8, 9, 8⟩ ++ ((alignmentPairs version).flatMap (fun ij =>
        (alignmentRect (alignmentCentre version ij)).writes) ++
      if version ≥ 7 then Rect.writes ⟨version * 4 + 17 - 11, 0, 3, 6⟩ ++
        Rect.writes ⟨0, version * 4 + 17 - 11, 6, 3⟩ else []))))) := by
    simp only [functionRects, List.flatMap_append, List.flatMap_cons, List.flatMap_nil,
      List.append_assoc, List.append_nil, List.flatMap_map]
    split <;> simp only [List.flatMap_cons, List.flatMap_nil, List.append_nil]
  rw [hws]
  refine drawn_bind hq (hfill ⟨6, 0, 1, _⟩ ?_ ?_ q hq) fun q hq =>
    drawn_bind hq (hfill ⟨0, 6, _, 1⟩ ?_ ?_ q hq) fun q hq =>
    drawn_bind hq (hfill ⟨0, 0, 9, 9⟩ ?_ ?_ q hq) fun q hq =>
    drawn_bind hq (hfill ⟨_, 0, 8, 9⟩ ?_ ?_ q hq) fun q hq =>
    drawn_bind hq (hfill ⟨0, _, 9, 8⟩ ?_ ?_ q hq) fun q hq =>
    drawn_bind hq (alignment_loop_gives hq fun ij hij q hq => hfill
      (alignmentRect (alignmentCentre version ij)) ?_ ?_ q hq) fun q hq => ?_
  case refine_13 =>
    by_cases h7 : version ≥ 7
    · rw [if_pos h7, if_pos h7]
      exact drawn_bind hq (hfill ⟨_, 0, 3, 6⟩ (by simp only; omega) (by simp only; omega) q hq)
        fun q hq => hfill ⟨0, _, 6, 3⟩ (by simp only; omega) (by simp only; omega) q hq
    · rw [if_neg h7, if_neg h7]
      exact gives_some (Drawn.refl _ q)
  case refine_11 | refine_12 =>
    have hc := centre_bounds h hij
    simp only [alignmentRect]
    omega
  all_goals
    simp only
    omega

/-- The black modules are those of the rectangles. -/
theorem initializeFunctionModules_gives {version : Nat} (h : IsVersion version) {q : Bytes}
    (hroom : bufferLenForVersion version ≤ q.size) :
    Gives (initializeFunctionModules version q) fun q' =>
      IsSymbol (version * 4 + 17) q' ∧ q'.size = q.size ∧
        ∀ p, pixelAt (version * 4 + 17) q' p = decide (IsFunction version p) := by
  obtain ⟨h21, h177⟩ := isVersion_side h
  have hcleared := cleared_gives h21 h177 hroom
  show Gives (memset q 0 _ >>= fun q => store q 0 _ >>= fun q => fillFunctionModules version q) _
  rw [← bind_assoc]
  refine hcleared.bind ?_
  rintro q1 ⟨hq1, hsize, hwhite⟩
  refine (fillFunctionModules_gives h hq1).mono fun q' hq' => ?_
  refine ⟨hq1.of_drawn hq', hq'.size_eq.trans hsize, fun p => ?_⟩
  rw [hq'.pixels_eq]
  have hmem : ∀ w, w ∈ (functionRects version).flatMap Rect.writes ↔
      IsFunction version w.1 ∧ w.2 = true := by
    intro w
    simp only [List.mem_flatMap, Rect.mem_writes, IsFunction]
    constructor
    · rintro ⟨r, hr, hhas, hc⟩
      exact ⟨⟨r, hr, hhas⟩, hc⟩
    · rintro ⟨⟨r, hr, hhas⟩, hc⟩
      exact ⟨r, hr, hhas, hc⟩
  by_cases hp : IsFunction version p
  · rw [decide_eq_true hp]
    exact writeAll_of_mem ((hmem (p, true)).2 ⟨hp, rfl⟩) fun w hw _ => ((hmem w).1 hw).2
  · rw [decide_eq_false hp, writeAll_of_notMem, hwhite]
    intro w hw heq
    exact hp (heq ▸ ((hmem w).1 hw).1)

/-! ## The white ones -/

/-- A write, if it is inside of the symbol. -/
def boundedWrite (s : Nat) (x y : Int) (c : Bool) : List ((Nat × Nat) × Bool) :=
  if 0 ≤ x ∧ x < s ∧ 0 ≤ y ∧ y < s then [((x.toNat, y.toNat), c)] else []

def timingWrites (s : Nat) : List ((Nat × Nat) × Bool) :=
  (List.range ((s - 7 - 7 + 1) / 2)).flatMap fun k =>
    [((6, 7 + 2 * k), false), ((7 + 2 * k, 6), false)]

/-- The distance from the centre of a finder, for the indices of the loops. -/
def ringOf (i j : Nat) : Nat := max ((i : Int) - 4).natAbs ((j : Int) - 4).natAbs

def finderWrites (s : Nat) : List ((Nat × Nat) × Bool) :=
  (List.range 9).flatMap fun j => (List.range 9).flatMap fun i =>
    if ringOf i j = 2 ∨ ringOf i j = 4 then
      boundedWrite s (3 + ((i : Int) - 4)) (3 + ((j : Int) - 4)) false ++
        (boundedWrite s (s - 4 + ((i : Int) - 4)) (3 + ((j : Int) - 4)) false ++
          boundedWrite s (3 + ((i : Int) - 4)) (s - 4 + ((j : Int) - 4)) false)
    else []

/-- The middle of an alignment pattern, white around its centre. -/
def centreWrites (c : Nat × Nat) : List ((Nat × Nat) × Bool) :=
  (List.range 3).flatMap fun dy => (List.range 3).flatMap fun dx =>
    [((c.1 + dx - 1, c.2 + dy - 1), decide (dx = 1 ∧ dy = 1))]

def versionWrites (version : Nat) : List ((Nat × Nat) × Bool) :=
  if version ≥ 7 then
    (List.range 6).flatMap fun i => (List.range 3).flatMap fun j =>
      [((version * 4 + 17 - 11 + j, i), getBit (versionBits version) (3 * i + j)),
        ((i, version * 4 + 17 - 11 + j), getBit (versionBits version) (3 * i + j))]
  else []

def whiteWrites (version : Nat) : List ((Nat × Nat) × Bool) :=
  timingWrites (version * 4 + 17) ++ (finderWrites (version * 4 + 17) ++
    ((alignmentPairs version).flatMap (fun ij => centreWrites (alignmentCentre version ij)) ++
      versionWrites version))

theorem versionBits_lt {version : Nat} (h : IsVersion version) : versionBits version >>> 18 = 0 := by
  have hall : ∀ v ≤ 40, versionBits v >>> 18 = 0 := by decide
  exact hall version h.2

theorem drawWhiteFunctionModules_gives {version : Nat} (h : IsVersion version) {q : Bytes}
    (hq : IsSymbol (version * 4 + 17) q) :
    Gives (drawWhiteFunctionModules q version) fun q' =>
      Drawn (version * 4 + 17) q q' (whiteWrites version) := by
  have hside := isVersion_side h
  rw [drawWhiteFunctionModules, getSize_eq hq, some_bind]
  refine drawn_bind hq (drawn_loop hq fun k hk q hq => ?_) fun q hq =>
    drawn_bind hq (drawn_loop hq fun j hj q hq => drawn_loop hq fun i hi q hq => ?_) fun q hq =>
    drawn_bind hq (alignment_loop_gives hq fun ij hij q hq => drawn_loop hq fun dy hdy q hq =>
      drawn_loop hq fun dx hdx q hq => ?_) fun q hq => ?_
  · -- the timing lines
    exact drawn_bind hq (setModule_gives hq (by omega) (by omega) false) fun q hq =>
      setModule_gives hq (by omega) (by omega) false
  · -- the rings of the finders
    show Gives (if ringOf i j = 2 ∨ ringOf i j = 4 then _ else _) _
    by_cases hring : ringOf i j = 2 ∨ ringOf i j = 4
    · rw [if_pos hring, if_pos hring]
      exact drawn_bind hq (setModuleBounded_gives hq _ _ false) fun q hq =>
        drawn_bind hq (setModuleBounded_gives hq _ _ false) fun q hq =>
          setModuleBounded_gives hq _ _ false
    · rw [if_neg hring, if_neg hring]
      exact gives_some (Drawn.refl _ q)
  · have hc := centre_bounds h hij
    simp only [alignmentCentre] at hc
    exact setModule_gives hq (by omega) (by omega) _
  · by_cases h7 : version ≥ 7
    · rw [if_pos h7, assert_bind (versionBits_lt h), versionWrites, if_pos h7]
      exact drawn_loop hq fun i hi q hq => drawn_loop hq fun j hj q hq =>
        drawn_bind hq (setModule_gives hq (by omega) (by omega) _) fun q hq =>
          setModule_gives hq (by omega) (by omega) _
    · rw [if_neg h7, versionWrites, if_neg h7]
      exact gives_some (Drawn.refl _ q)

/-! ## The format -/

def formatWrites (s bits : Nat) : List ((Nat × Nat) × Bool) :=
  ((List.range 6).flatMap fun i => [((8, i), getBit bits i)]) ++
    ([((8, 7), getBit bits 6)] ++ ([((8, 8), getBit bits 7)] ++ ([((7, 8), getBit bits 8)] ++
      (((List.range 6).flatMap fun k => [((14 - (9 + k), 8), getBit bits (9 + k))]) ++
        (((List.range 8).flatMap fun i => [((s - 1 - i, 8), getBit bits i)]) ++
          (((List.range 7).flatMap fun k => [((8, s - 15 + (8 + k)), getBit bits (8 + k))]) ++
            [((8, s - 8), true)]))))))

theorem formatWord_lt (ecl : Ecc) {mask : Nat} (hmask : mask ≤ 7) :
    formatWord ecl mask >>> 15 = 0 := by
  have hall : ∀ m ≤ 7, formatWord ecl m >>> 15 = 0 := by
    cases ecl <;> decide
  exact hall mask hmask

theorem drawFormatBits_gives (ecl : Ecc) {mask : Nat} (hmask : mask ≤ 7) {s : Nat} {q : Bytes}
    (hq : IsSymbol s q) :
    Gives (drawFormatBits ecl mask q) fun q' =>
      Drawn s q q' (formatWrites s (formatWord ecl mask)) := by
  have h21 := hq.le_size
  rw [drawFormatBits, assert_bind hmask]
  show Gives (assert _ >>= _) _
  rw [assert_bind (formatWord_lt ecl hmask)]
  refine drawn_bind hq (drawn_loop hq fun i hi q hq =>
      setModule_gives hq (by omega) (by omega) _) fun q hq =>
    drawn_bind hq (setModule_gives hq (by omega) (by omega) _) fun q hq =>
    drawn_bind hq (setModule_gives hq (by omega) (by omega) _) fun q hq =>
    drawn_bind hq (setModule_gives hq (by omega) (by omega) _) fun q hq =>
    drawn_bind hq (drawn_loop hq fun k hk q hq =>
      setModule_gives hq (by omega) (by omega) _) fun q hq => ?_
  rw [getSize_eq hq, some_bind]
  exact drawn_bind hq (drawn_loop hq fun i hi q hq =>
      setModule_gives hq (by omega) (by omega) _) fun q hq =>
    drawn_bind hq (drawn_loop hq fun k hk q hq =>
      setModule_gives hq (by omega) (by omega) _) fun q hq =>
    setModule_gives hq (by omega) (by omega) _

/-! ## Where the two draw -/

theorem isFunction_of_has {version : Nat} {r : Rect} {p : Nat × Nat}
    (hr : r ∈ functionRects version) (hp : r.Has p) : IsFunction version p := ⟨r, hr, hp⟩

theorem isFunction_upperLeft (version : Nat) {p : Nat × Nat} (hx : p.1 < 9) (hy : p.2 < 9) :
    IsFunction version p :=
  isFunction_of_has (r := ⟨0, 0, 9, 9⟩) (by simp [functionRects])
    ⟨Nat.zero_le _, by simpa using hx, Nat.zero_le _, by simpa using hy⟩

theorem isFunction_upperRight (version : Nat) {p : Nat × Nat} (hx : version * 4 + 17 - 8 ≤ p.1)
    (hx' : p.1 < version * 4 + 17) (hy : p.2 < 9) : IsFunction version p :=
  isFunction_of_has (r := ⟨version * 4 + 17 - 8, 0, 8, 9⟩) (by simp [functionRects])
    ⟨hx, by simp only; omega, Nat.zero_le _, by simpa using hy⟩

theorem isFunction_lowerLeft (version : Nat) {p : Nat × Nat} (hx : p.1 < 9)
    (hy : version * 4 + 17 - 8 ≤ p.2) (hy' : p.2 < version * 4 + 17) : IsFunction version p :=
  isFunction_of_has (r := ⟨0, version * 4 + 17 - 8, 9, 8⟩) (by simp [functionRects])
    ⟨Nat.zero_le _, by simpa using hx, hy, by simp only; omega⟩

theorem isFunction_of_mem_finderWrites {version : Nat} {w : (Nat × Nat) × Bool}
    (hw : w ∈ finderWrites (version * 4 + 17)) : IsFunction version w.1 := by
  simp only [finderWrites, List.mem_flatMap, List.mem_range] at hw
  obtain ⟨j, hj, i, hi, hw⟩ := hw
  have hbounded : ∀ {x y : Int}, w ∈ boundedWrite (version * 4 + 17) x y false →
      0 ≤ x ∧ x < (version * 4 + 17 : Nat) ∧ 0 ≤ y ∧ y < (version * 4 + 17 : Nat) ∧
        w.1 = (x.toNat, y.toNat) := by
    intro x y hmem
    rw [boundedWrite] at hmem
    split at hmem
    · next hin =>
      rw [List.mem_singleton.1 hmem]
      exact ⟨hin.1, hin.2.1, hin.2.2.1, hin.2.2.2, rfl⟩
    · simp at hmem
  split at hw
  · simp only [List.mem_append] at hw
    -- the three finders
    rcases hw with hw | hw | hw
    · obtain ⟨h1, h2, h3, h4, heq⟩ := hbounded hw
      rw [heq]
      exact isFunction_upperLeft version (by simp only; omega) (by simp only; omega)
    · obtain ⟨h1, h2, h3, h4, heq⟩ := hbounded hw
      rw [heq]
      exact isFunction_upperRight version (by simp only; omega) (by simp only; omega)
        (by simp only; omega)
    · obtain ⟨h1, h2, h3, h4, heq⟩ := hbounded hw
      rw [heq]
      exact isFunction_lowerLeft version (by simp only; omega) (by simp only; omega)
        (by simp only; omega)
  · simp at hw

/-- The white function modules are function modules. -/
theorem isFunction_of_mem_whiteWrites {version : Nat} (h : IsVersion version)
    {w : (Nat × Nat) × Bool} (hw : w ∈ whiteWrites version) : IsFunction version w.1 := by
  have hside := isVersion_side h
  simp only [whiteWrites, List.mem_append] at hw
  rcases hw with hw | hw | hw | hw
  · simp only [timingWrites, List.mem_flatMap, List.mem_range, List.mem_cons, List.not_mem_nil,
      or_false] at hw
    obtain ⟨k, hk, rfl | rfl⟩ := hw
    · exact isFunction_of_has (r := ⟨6, 0, 1, version * 4 + 17⟩) (by simp [functionRects])
        ⟨by simp, by simp, by simp, by simp only; omega⟩
    · exact isFunction_of_has (r := ⟨0, 6, version * 4 + 17, 1⟩) (by simp [functionRects])
        ⟨by simp, by simp only; omega, by simp, by simp⟩
  · exact isFunction_of_mem_finderWrites hw
  · simp only [List.mem_flatMap, centreWrites, List.mem_range, List.mem_singleton] at hw
    obtain ⟨ij, hij, dy, hdy, dx, hdx, rfl⟩ := hw
    have hc := centre_bounds h hij
    refine isFunction_of_has (r := alignmentRect (alignmentCentre version ij)) ?_ ?_
    · simp only [functionRects, List.mem_append, List.mem_map]
      exact .inl (.inr ⟨ij, hij, rfl⟩)
    · simp only [alignmentRect, Rect.Has]
      omega
  · rw [versionWrites] at hw
    split at hw
    · next h7 =>
      simp only [List.mem_flatMap, List.mem_range, List.mem_cons, List.not_mem_nil, or_false] at hw
      obtain ⟨i, hi, j, hj, rfl | rfl⟩ := hw
      · refine isFunction_of_has (r := ⟨version * 4 + 17 - 11, 0, 3, 6⟩) ?_ ?_
        · simp [functionRects, h7]
        · simp only [Rect.Has]
          omega
      · refine isFunction_of_has (r := ⟨0, version * 4 + 17 - 11, 6, 3⟩) ?_ ?_
        · simp [functionRects, h7]
        · simp only [Rect.Has]
          omega
    · simp at hw

/-- The places of the bits of the format around the first finder. -/
def formatPlace (i : Nat) : Nat × Nat :=
  if i ≤ 5 then (8, i) else if i = 6 then (8, 7) else if i = 7 then (8, 8)
  else if i = 8 then (7, 8) else (14 - i, 8)

/-- The places of the same bits beside the other two. -/
def formatPlaceOther (s i : Nat) : Nat × Nat :=
  if i < 8 then (s - 1 - i, 8) else (8, s - 15 + i)

/-- What `drawFormatBits` draws: every bit twice, and the module that is always black. -/
theorem mem_formatWrites {s bits : Nat} {w : (Nat × Nat) × Bool} :
    w ∈ formatWrites s bits ↔ (∃ i < 15, w = (formatPlace i, getBit bits i)) ∨
      (∃ i < 15, w = (formatPlaceOther s i, getBit bits i)) ∨ w = ((8, s - 8), true) := by
  simp only [formatWrites, List.mem_append, List.mem_flatMap, List.mem_range, List.mem_singleton]
  constructor
  · rintro (⟨i, hi, rfl⟩ | rfl | rfl | rfl | ⟨k, hk, rfl⟩ | ⟨i, hi, rfl⟩ | ⟨k, hk, rfl⟩ | rfl)
    · exact .inl ⟨i, by omega, by rw [formatPlace, if_pos (by omega)]⟩
    · exact .inl ⟨6, by decide, rfl⟩
    · exact .inl ⟨7, by decide, rfl⟩
    · exact .inl ⟨8, by decide, rfl⟩
    · refine .inl ⟨9 + k, by omega, ?_⟩
      rw [formatPlace, if_neg (by omega), if_neg (by omega), if_neg (by omega), if_neg (by omega)]
    · exact .inr (.inl ⟨i, by omega, by rw [formatPlaceOther, if_pos hi]⟩)
    · exact .inr (.inl ⟨8 + k, by omega, by rw [formatPlaceOther, if_neg (by omega)]⟩)
    · exact .inr (.inr rfl)
  · rintro (⟨i, hi, rfl⟩ | ⟨i, hi, rfl⟩ | rfl)
    · by_cases h5 : i ≤ 5
      · exact .inl ⟨i, by omega, by rw [formatPlace, if_pos h5]⟩
      obtain rfl | rfl | rfl | h9 : i = 6 ∨ i = 7 ∨ i = 8 ∨ 9 ≤ i := by omega
      · exact .inr (.inl rfl)
      · exact .inr (.inr (.inl rfl))
      · exact .inr (.inr (.inr (.inl rfl)))
      · refine .inr (.inr (.inr (.inr (.inl ⟨i - 9, by omega, ?_⟩))))
        rw [show 9 + (i - 9) = i by omega, formatPlace, if_neg (by omega), if_neg (by omega),
          if_neg (by omega), if_neg (by omega)]
    · by_cases h8 : i < 8
      · exact .inr (.inr (.inr (.inr (.inr (.inl ⟨i, h8, by rw [formatPlaceOther, if_pos h8]⟩)))))
      · refine .inr (.inr (.inr (.inr (.inr (.inr (.inl ⟨i - 8, by omega, ?_⟩))))))
        rw [show 8 + (i - 8) = i by omega, formatPlaceOther, if_neg h8]
    · exact .inr (.inr (.inr (.inr (.inr (.inr (.inr rfl))))))

theorem isFunction_of_mem_formatWrites {version : Nat} (h : IsVersion version) {bits : Nat}
    {w : (Nat × Nat) × Bool} (hw : w ∈ formatWrites (version * 4 + 17) bits) :
    IsFunction version w.1 := by
  have hside := isVersion_side h
  rcases mem_formatWrites.1 hw with ⟨i, hi, rfl⟩ | ⟨i, hi, rfl⟩ | rfl
  · refine isFunction_upperLeft version ?_ ?_
    all_goals
      simp only [formatPlace]
      split_ifs <;> simp only <;> omega
  · by_cases h8 : i < 8
    · simp only [formatPlaceOther, if_pos h8]
      exact isFunction_upperRight version (by simp only; omega) (by simp only; omega)
        (by simp only; omega)
    · simp only [formatPlaceOther, if_neg h8]
      exact isFunction_lowerLeft version (by simp only; omega) (by simp only; omega)
        (by simp only; omega)
  · exact isFunction_lowerLeft version (by simp only; omega) (by simp only; omega)
      (by simp only; omega)

/-- No two bits of the format meet. -/
theorem formatPlaces_inj {s i j : Nat} (hs : 21 ≤ s) (hi : i < 15) (hj : j < 15) :
    (formatPlace i = formatPlace j → i = j) ∧
      (formatPlaceOther s i = formatPlaceOther s j → i = j) ∧
      formatPlace i ≠ formatPlaceOther s j ∧ formatPlace i ≠ (8, s - 8) ∧
      formatPlaceOther s i ≠ (8, s - 8) := by
  simp only [formatPlace, formatPlaceOther]
  refine ⟨?_, ?_, ?_, ?_, ?_⟩
  all_goals
    split_ifs <;> simp only [Prod.mk.injEq, ne_eq] <;> omega

/-- Both copies read as the bits that were drawn. -/
theorem writeAll_formatWrites {s bits i : Nat} (hs : 21 ≤ s) (hi : i < 15)
    (f : Nat × Nat → Bool) :
    writeAll f (formatWrites s bits) (formatPlace i) = getBit bits i ∧
      writeAll f (formatWrites s bits) (formatPlaceOther s i) = getBit bits i := by
  constructor
  · refine writeAll_of_mem (mem_formatWrites.2 (.inl ⟨i, hi, rfl⟩)) fun w hw heq => ?_
    rcases mem_formatWrites.1 hw with ⟨j, hj, rfl⟩ | ⟨j, hj, rfl⟩ | rfl
    · rw [(formatPlaces_inj hs hj hi).1 heq]
    · exact absurd heq.symm (formatPlaces_inj hs hi hj).2.2.1
    · exact absurd heq.symm (formatPlaces_inj hs hi hi).2.2.2.1
  · refine writeAll_of_mem (mem_formatWrites.2 (.inr (.inl ⟨i, hi, rfl⟩))) fun w hw heq => ?_
    rcases mem_formatWrites.1 hw with ⟨j, hj, rfl⟩ | ⟨j, hj, rfl⟩ | rfl
    · exact absurd heq (formatPlaces_inj hs hj hi).2.2.1
    · rw [(formatPlaces_inj hs hj hi).2.1 heq]
    · exact absurd heq.symm (formatPlaces_inj hs hi hi).2.2.2.2

end Thor
