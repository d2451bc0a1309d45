import Thor.Ui.Segments

/-!
# What fits a symbol (ui/qr_generator.c, headers/qrgen.h)

Symbols come in forty versions and four levels of error correction.

- `getNumRawDataModules`, `getNumDataCodewords`: the room in a symbol, from the tables.
- `numCharCountBits`, `getTotalBits`: what some segments take in a version, `-1` when a
  count does not fit its field or the bits are too many.
- `searchVersion`: the loop for the smallest version; `boosted`: the loop for the highest
  level at that version.
- `Fits`: when segments fit. `searchVersion_gives`: the loop finds the least version in the
  range where they do, or that there is none. `boosted_eq`: the level is the highest that
  they fit, and not below the one asked for.
-/

namespace Thor

open CLib

/-- `enum qrcodegen_Ecc`, from low to high. -/
inductive Ecc where
  | low
  | medium
  | quartile
  | high
  deriving DecidableEq

def Ecc.level : Ecc → Nat
  | low => 0
  | medium => 1
  | quartile => 2
  | high => 3

/-- `qrcodegen_VERSION_MIN` and `qrcodegen_VERSION_MAX`. -/
def versionMin : Nat := 1

def versionMax : Nat := 40

/-- `ECC_CODEWORDS_PER_BLOCK`, without the padding at index 0. -/
def eccCodewordsPerBlock : Ecc → List Nat
  | .low => [7, 10, 15, 20, 26, 18, 20, 24, 30, 18, 20, 24, 26, 30, 22, 24, 28, 30, 28, 28, 28,
      28, 30, 30, 26, 28, 30, 30, 30, 30, 30, 30, 30, 30, 30, 30, 30, 30, 30, 30]
  | .medium => [10, 16, 26, 18, 24, 16, 18, 22, 22, 26, 30, 22, 22, 24, 24, 28, 28, 26, 26, 26,
      26, 28, 28, 28, 28, 28, 28, 28, 28, 28, 28, 28, 28, 28, 28, 28, 28, 28, 28, 28]
  | .quartile => [13, 22, 18, 26, 18, 24, 18, 22, 20, 24, 28, 26, 24, 20, 30, 24, 28, 28, 26, 30,
      28, 30, 30, 30, 30, 28, 30, 30, 30, 30, 30, 30, 30, 30, 30, 30, 30, 30, 30, 30]
  | .high => [17, 28, 22, 16, 22, 28, 26, 26, 24, 28, 24, 28, 22, 24, 24, 30, 28, 28, 26, 28, 30,
      24, 30, 30, 30, 30, 30, 30, 30, 30, 30, 30, 30, 30, 30, 30, 30, 30, 30, 30]

/-- `NUM_ERROR_CORRECTION_BLOCKS`, without the padding at index 0. -/
def numErrorCorrectionBlocks : Ecc → List Nat
  | .low => [1, 1, 1, 1, 1, 2, 2, 2, 2, 4, 4, 4, 4, 4, 6, 6, 6, 6, 7, 8, 8, 9, 9, 10, 12, 12, 12,
      13, 14, 15, 16, 17, 18, 19, 19, 20, 21, 22, 24, 25]
  | .medium => [1, 1, 1, 2, 2, 4, 4, 4, 5, 5, 5, 8, 9, 9, 10, 10, 11, 13, 14, 16, 17, 17, 18, 20,
      21, 23, 25, 26, 28, 29, 31, 33, 35, 37, 38, 40, 43, 45, 47, 49]
  | .quartile => [1, 1, 2, 2, 4, 4, 6, 6, 8, 8, 8, 10, 12, 16, 12, 17, 16, 18, 21, 20, 23, 23, 25,
      27, 29, 34, 34, 35, 38, 40, 43, 45, 48, 51, 53, 56, 59, 62, 65, 68]
  | .high => [1, 1, 2, 4, 4, 4, 5, 6, 8, 8, 11, 11, 16, 16, 18, 16, 19, 21, 25, 25, 25, 34, 30, 32,
      35, 37, 40, 42, 45, 48, 51, 54, 57, 60, 63, 66, 70, 74, 77, 81]

/-- `ECC_CODEWORDS_PER_BLOCK[ecl][version]`, for a version that there is. -/
def blockEccLen (ecl : Ecc) (version : Nat) : Nat := (eccCodewordsPerBlock ecl).getD (version - 1) 0

/-- `NUM_ERROR_CORRECTION_BLOCKS[ecl][version]`, for a version that there is. -/
def numBlocks (ecl : Ecc) (version : Nat) : Nat :=
  (numErrorCorrectionBlocks ecl).getD (version - 1) 0

/-- `qrcodegen_BUFFER_LEN_FOR_VERSION`. -/
def bufferLenForVersion (n : Nat) : Nat := ((n * 4 + 17) * (n * 4 + 17) + 7) / 8 + 1

/-- The number of modules for data, as `getNumRawDataModules` computes it. -/
def rawDataModules (ver : Nat) : Nat :=
  let result := (16 * ver + 128) * ver + 64
  if ver ≥ 2 then
    let numAlign := ver / 7 + 2
    let result := result - ((25 * numAlign - 10) * numAlign - 55)
    if ver ≥ 7 then result - 36 else result
  else result

def getNumRawDataModules (ver : Nat) : Option Nat := do
  assert (versionMin ≤ ver ∧ ver ≤ versionMax)
  assert (208 ≤ rawDataModules ver ∧ rawDataModules ver ≤ 29648)
  return rawDataModules ver

def getNumDataCodewords (version : Nat) (ecl : Ecc) : Option Nat := do
  let raw ← getNumRawDataModules version
  return raw / 8 - blockEccLen ecl version * numBlocks ecl version

/-- The width of the field for the number of characters, in the three ranges of versions. -/
def charCountBits (mode : Mode) (version : Nat) : Nat :=
  let widths := match mode with
    | .numeric => [10, 12, 14]
    | .alphanumeric => [9, 11, 13]
    | .byte => [8, 16, 16]
    | .kanji => [8, 10, 12]
    | .eci => [0, 0, 0]
  widths.getD ((version + 7) / 17) 0

def numCharCountBits (mode : Mode) (version : Nat) : Option Nat := do
  assert (versionMin ≤ version ∧ version ≤ versionMax)
  return charCountBits mode version

/-- The loop of `getTotalBits`, from the bits counted so far. -/
def totalBitsLoop (version : Nat) : List Segment → Nat → Option Int
  | [], result => do
    assert (result ≤ int16Max)
    return result
  | seg :: segs, result => do
    assert (seg.numChars ≤ int16Max)
    assert (seg.bitLength ≤ int16Max)
    let ccbits ← numCharCountBits seg.mode version
    assert (ccbits ≤ 16)
    if seg.numChars ≥ 2 ^ ccbits then some (-1)
    else if result + 4 + ccbits + seg.bitLength > int16Max then some (-1)
    else totalBitsLoop version segs (result + 4 + ccbits + seg.bitLength)

def getTotalBits (segs : List Segment) (version : Nat) : Option Int :=
  totalBitsLoop version segs 0

/-- The loop for the version. With it comes the number of bits used, and `none` when no
version up to `maxVersion` is large enough. -/
def searchVersion (segs : List Segment) (ecl : Ecc) (maxVersion : Nat) :
    Nat → Nat → Option (Option (Nat × Int))
  | 0, _ => none
  | rounds + 1, version => do
    let dataCapacityBits := (← getNumDataCodewords version ecl) * 8
    let dataUsedBits ← getTotalBits segs version
    if dataUsedBits ≠ -1 ∧ dataUsedBits ≤ dataCapacityBits then
      some (some (version, dataUsedBits))
    else if version ≥ maxVersion then some none
    else searchVersion segs ecl maxVersion rounds (version + 1)

/-- The loop from the medium level to the high one. -/
def boosted (boostEcl : Bool) (dataUsedBits : Int) (version : Nat) (ecl : Ecc) : Option Ecc :=
  [Ecc.medium, .quartile, .high].foldlM (fun ecl i => do
    let dataCodewords ← getNumDataCodewords version i
    return if boostEcl ∧ dataUsedBits ≤ dataCodewords * 8 then i else ecl) ecl

/-! ## The tables -/

/-- The number of codewords for data. -/
def dataCodewords (version : Nat) (ecl : Ecc) : Nat :=
  rawDataModules version / 8 - blockEccLen ecl version * numBlocks ecl version

/-- A version that there is. -/
def IsVersion (version : Nat) : Prop := versionMin ≤ version ∧ version ≤ versionMax

theorem rawDataModules_bounds {version : Nat} (h : IsVersion version) :
    208 ≤ rawDataModules version ∧ rawDataModules version ≤ 29648 ∧
      rawDataModules version ≤ (version * 4 + 17) * (version * 4 + 17) := by
  have hall : ∀ v ≤ 40, 1 ≤ v → 208 ≤ rawDataModules v ∧ rawDataModules v ≤ 29648 ∧
      rawDataModules v ≤ (v * 4 + 17) * (v * 4 + 17) := by decide
  exact hall version h.2 h.1

/-- What the layout of a symbol needs of the tables: in every block there is data, and a
block is shorter than the field that its code is over. -/
theorem layout_bounds {version : Nat} (h : IsVersion version) (ecl : Ecc) :
    0 < numBlocks ecl version ∧ 7 ≤ blockEccLen ecl version ∧ blockEccLen ecl version ≤ 30 ∧
      blockEccLen ecl version < rawDataModules version / 8 / numBlocks ecl version ∧
      rawDataModules version / 8 / numBlocks ecl version < 255 := by
  have hall : ∀ v ≤ 40, 1 ≤ v → 0 < numBlocks ecl v ∧ 7 ≤ blockEccLen ecl v ∧
      blockEccLen ecl v ≤ 30 ∧ blockEccLen ecl v < rawDataModules v / 8 / numBlocks ecl v ∧
      rawDataModules v / 8 / numBlocks ecl v < 255 := by
    cases ecl <;> decide
  exact hall version h.2 h.1

/-- A higher level leaves less room. -/
theorem dataCodewords_anti {version : Nat} (h : IsVersion version) {ecl ecl' : Ecc}
    (hle : ecl.level ≤ ecl'.level) : dataCodewords version ecl' ≤ dataCodewords version ecl := by
  have hall : ∀ v ≤ 40, 1 ≤ v → dataCodewords v .high ≤ dataCodewords v .quartile ∧
      dataCodewords v .quartile ≤ dataCodewords v .medium ∧
      dataCodewords v .medium ≤ dataCodewords v .low := by decide
  obtain ⟨h1, h2, h3⟩ := hall version h.2 h.1
  cases ecl <;> cases ecl' <;> simp only [Ecc.level] at hle <;> omega

theorem getNumRawDataModules_eq {version : Nat} (h : IsVersion version) :
    getNumRawDataModules version = some (rawDataModules version) := by
  have hb := rawDataModules_bounds h
  rw [getNumRawDataModules, assert_bind ⟨h.1, h.2⟩, assert_bind ⟨hb.1, hb.2.1⟩]
  rfl

theorem getNumDataCodewords_eq {version : Nat} (h : IsVersion version) (ecl : Ecc) :
    getNumDataCodewords version ecl = some (dataCodewords version ecl) := by
  rw [getNumDataCodewords, getNumRawDataModules_eq h]
  rfl

theorem numCharCountBits_eq {version : Nat} (h : IsVersion version) (mode : Mode) :
    numCharCountBits mode version = some (charCountBits mode version) := by
  rw [numCharCountBits, assert_bind ⟨h.1, h.2⟩]
  rfl

theorem charCountBits_le {version : Nat} (h : IsVersion version) (mode : Mode) :
    charCountBits mode version ≤ 16 := by
  have hall : ∀ v ≤ 40, charCountBits mode v ≤ 16 := by
    cases mode <;> decide
  exact hall version h.2

theorem dataCodewords_le (version : Nat) (ecl : Ecc) :
    8 * dataCodewords version ecl ≤ rawDataModules version := by
  rw [dataCodewords]
  omega

/-! ## What fits -/

/-- A segment as the callers are to make it: counts that an `int16_t` holds, and no more
bits than there are in its array. -/
structure Segment.Valid (seg : Segment) : Prop where
  numChars_le : seg.numChars ≤ int16Max
  bitLength_le : seg.bitLength ≤ int16Max
  in_data : seg.bitLength ≤ 8 * seg.data.size

/-- The bits of some segments with their headers. -/
def usedBits (version : Nat) (segs : List Segment) : Nat :=
  total (segs.map fun seg => 4 + charCountBits seg.mode version + seg.bitLength)

/-- Every count fits its field. -/
def CountsFit (version : Nat) (segs : List Segment) : Prop :=
  ∀ seg ∈ segs, seg.numChars < 2 ^ charCountBits seg.mode version

instance (version : Nat) (segs : List Segment) : Decidable (CountsFit version segs) :=
  List.decidableBAll _ _

/-- The segments fit a symbol of the version at the level. -/
def Fits (segs : List Segment) (ecl : Ecc) (version : Nat) : Prop :=
  CountsFit version segs ∧ usedBits version segs ≤ 8 * dataCodewords version ecl

instance Segment.decidableFits (segs : List Segment) (ecl : Ecc) (version : Nat) :
    Decidable (Fits segs ecl version) := inferInstanceAs (Decidable (_ ∧ _))

theorem usedBits_cons (version : Nat) (seg : Segment) (segs : List Segment) :
    usedBits version (seg :: segs) =
      4 + charCountBits seg.mode version + seg.bitLength + usedBits version segs := rfl

theorem countsFit_cons {version : Nat} {seg : Segment} {segs : List Segment} :
    CountsFit version (seg :: segs) ↔
      seg.numChars < 2 ^ charCountBits seg.mode version ∧ CountsFit version segs :=
  List.forall_mem_cons

theorem totalBitsLoop_eq {version : Nat} (h : IsVersion version) {segs : List Segment}
    (hsegs : ∀ seg ∈ segs, seg.Valid) {result : Nat} (hresult : result ≤ int16Max) :
    totalBitsLoop version segs result =
      some (if CountsFit version segs ∧ result + usedBits version segs ≤ int16Max
        then ((result + usedBits version segs : Nat) : Int) else -1) := by
  induction segs generalizing result with
  | nil =>
    have hcounts : CountsFit version [] := fun seg hseg => by simp at hseg
    rw [totalBitsLoop, assert_bind hresult, if_pos ⟨hcounts, hresult⟩]
    rfl
  | cons seg segs ih =>
    have hseg := hsegs seg (List.mem_cons_self ..)
    rw [totalBitsLoop, assert_bind hseg.numChars_le, assert_bind hseg.bitLength_le,
      numCharCountBits_eq h, some_bind, assert_bind (charCountBits_le h _), usedBits_cons]
    by_cases hcount : seg.numChars ≥ 2 ^ charCountBits seg.mode version
    · rw [if_pos hcount, if_neg fun hall => Nat.not_lt.2 hcount (countsFit_cons.1 hall.1).1]
    rw [if_neg hcount]
    by_cases hsum : result + 4 + charCountBits seg.mode version + seg.bitLength > int16Max
    · rw [if_pos hsum, if_neg fun hall => by have := hall.2; omega]
    rw [if_neg hsum, ih (fun s hs => hsegs s (List.mem_cons_of_mem seg hs)) (by omega)]
    have hcount' : seg.numChars < 2 ^ charCountBits seg.mode version := by omega
    have hassoc : result + 4 + charCountBits seg.mode version + seg.bitLength +
        usedBits version segs = result + (4 + charCountBits seg.mode version + seg.bitLength +
          usedBits version segs) := by omega
    simp only [hassoc, countsFit_cons, hcount', true_and]

/-- The test of the search is that the segments fit. -/
theorem getTotalBits_eq {version : Nat} (h : IsVersion version) {segs : List Segment}
    (hsegs : ∀ seg ∈ segs, seg.Valid) (ecl : Ecc) :
    ∃ d : Int, getTotalBits segs version = some d ∧
      ((d ≠ -1 ∧ d ≤ (dataCodewords version ecl * 8 : Nat)) ↔ Fits segs ecl version) ∧
      (Fits segs ecl version → d = usedBits version segs) := by
  have hroom := dataCodewords_le version ecl
  have hraw := rawDataModules_bounds h
  rw [getTotalBits, totalBitsLoop_eq h hsegs (Nat.zero_le _)]
  simp only [Nat.zero_add]
  by_cases hfit : CountsFit version segs ∧ usedBits version segs ≤ int16Max
  · rw [if_pos hfit]
    refine ⟨_, rfl, ?_, fun _ => rfl⟩
    rw [Fits]
    constructor
    · intro hd
      exact ⟨hfit.1, by omega⟩
    · intro hf
      omega
  · rw [if_neg hfit]
    have hnot : ¬ Fits segs ecl version := by
      intro hf
      exact hfit ⟨hf.1, by have := hf.2; rw [int16Max]; omega⟩
    exact ⟨_, rfl, ⟨fun hd => absurd rfl hd.1, fun hf => absurd hf hnot⟩, fun hf => absurd hf hnot⟩

/-- The search ends at the least version that the segments fit, or with none of the range. -/
theorem searchVersion_gives {segs : List Segment} (hsegs : ∀ seg ∈ segs, seg.Valid) (ecl : Ecc)
    {maxVersion : Nat} (hmax : maxVersion ≤ versionMax) :
    ∀ {rounds version : Nat}, versionMin ≤ version → version ≤ maxVersion →
      maxVersion < version + rounds →
      Gives (searchVersion segs ecl maxVersion rounds version) fun r =>
        (∃ v, r = some (v, (usedBits v segs : Int)) ∧ version ≤ v ∧ v ≤ maxVersion ∧
          Fits segs ecl v ∧ ∀ w, version ≤ w → w < v → ¬ Fits segs ecl w) ∨
        (r = none ∧ ∀ w, version ≤ w → w ≤ maxVersion → ¬ Fits segs ecl w)
  | 0, version, _, hle, hrounds => by omega
  | rounds + 1, version, hmin, hle, hrounds => by
    have hv : IsVersion version := ⟨hmin, by omega⟩
    obtain ⟨d, hd, htest, hused⟩ := getTotalBits_eq hv hsegs ecl
    rw [searchVersion, getNumDataCodewords_eq hv, some_bind, hd, some_bind]
    by_cases hfit : Fits segs ecl version
    · rw [if_pos (htest.2 hfit), hused hfit]
      exact gives_some (.inl ⟨version, rfl, Nat.le_refl _, hle, hfit, fun w h1 h2 => by omega⟩)
    rw [if_neg fun h => hfit (htest.1 h)]
    by_cases hlast : version ≥ maxVersion
    · rw [if_pos hlast]
      refine gives_some (.inr ⟨rfl, fun w h1 h2 => ?_⟩)
      rwa [show w = version by omega]
    rw [if_neg hlast]
    -- the versions after this one, and this one does not fit
    have hnext : ∀ {w}, version ≤ w → (∀ hw : version + 1 ≤ w, ¬ Fits segs ecl w) →
        ¬ Fits segs ecl w := by
      intro w hw hlater
      by_cases heq : w = version
      · rwa [heq]
      · exact hlater (by omega)
    refine (searchVersion_gives hsegs ecl hmax (by omega) (by omega) (by omega)).mono ?_
    rintro r (⟨v, rfl, h1, h2, h3, h4⟩ | ⟨rfl, h⟩)
    · exact .inl ⟨v, rfl, by omega, h2, h3, fun w hw hlt => hnext hw fun hw' => h4 w hw' hlt⟩
    · exact .inr ⟨rfl, fun w hw hle' => hnext hw fun hw' => h w hw' hle'⟩

/-- Boosting never lowers the level, and ends at the highest one with room for the bits. -/
theorem boosted_gives {version used : Nat} (h : IsVersion version) (boostEcl : Bool) {ecl : Ecc}
    (hfits : used ≤ 8 * dataCodewords version ecl) :
    Gives (boosted boostEcl used version ecl) fun e =>
      ecl.level ≤ e.level ∧ used ≤ 8 * dataCodewords version e ∧
        (boostEcl = false → e = ecl) ∧
        (boostEcl = true → ∀ e', used ≤ 8 * dataCodewords version e' → e'.level ≤ e.level) := by
  -- the loop, without the look-ups
  have hloop : boosted boostEcl used version ecl =
      some ([Ecc.medium, .quartile, .high].foldl (fun ecl i =>
        if boostEcl ∧ (used : Int) ≤ (dataCodewords version i * 8 : Nat) then i else ecl) ecl) := by
    simp only [boosted, List.foldlM_cons, List.foldlM_nil, getNumDataCodewords_eq h]
    rfl
  rw [hloop, gives_some_iff]
  have h1 : dataCodewords version .high ≤ dataCodewords version .quartile :=
    dataCodewords_anti h (by decide)
  have h2 : dataCodewords version .quartile ≤ dataCodewords version .medium :=
    dataCodewords_anti h (by decide)
  have h3 : dataCodewords version .medium ≤ dataCodewords version .low :=
    dataCodewords_anti h (by decide)
  cases boostEcl with
  | false => simp [hfits]
  | true =>
    have hcond : ∀ e, (used : Int) ≤ (dataCodewords version e * 8 : Nat) ↔
        used ≤ 8 * dataCodewords version e := by
      intro e
      omega
    simp only [List.foldl_cons, List.foldl_nil, true_and, hcond]
    -- the last level of the loop with room is the one; below it the levels have room too
    by_cases hhigh : used ≤ 8 * dataCodewords version .high
    · rw [if_pos hhigh]
      exact ⟨by cases ecl <;> decide, hhigh, by simp, fun _ e' _ => by cases e' <;> decide⟩
    rw [if_neg hhigh]
    by_cases hquart : used ≤ 8 * dataCodewords version .quartile
    · rw [if_pos hquart]
      refine ⟨?_, hquart, by simp, fun _ e' he' => ?_⟩
      · cases ecl <;> first | decide | exact absurd hfits hhigh
      · cases e' <;> first | decide | exact absurd he' hhigh
    rw [if_neg hquart]
    by_cases hmedium : used ≤ 8 * dataCodewords version .medium
    · rw [if_pos hmedium]
      refine ⟨?_, hmedium, by simp, fun _ e' he' => ?_⟩
      · cases ecl <;> first | decide | exact absurd hfits hhigh | exact absurd hfits hquart
      · cases e' <;> first | decide | exact absurd he' hhigh | exact absurd he' hquart
    rw [if_neg hmedium]
    refine ⟨Nat.le_refl _, hfits, by simp, fun _ e' he' => ?_⟩
    cases e' with
    | low => exact Nat.zero_le _
    | medium => exact absurd he' hmedium
    | quartile => exact absurd he' hquart
    | high => exact absurd he' hhigh

end Thor
