import Mathlib.Data.List.Basic
import Mathlib.Tactic.IntervalCases

/-!
# The symbols of the standard

The modules of a QR code symbol, as the standard has them for each of its forty versions. This
is what a reader goes by; nothing here is taken from an encoder. Coordinates are column first.

- `finderCentres`, `alignmentCentres`, `formatPlace`, `versionPlace`: where the patterns, the
  format and the version stand. `HasLandmarks`: a picture has all of them.
- `formatWords`, `versionWords`: what the format and the version are written as.
- `dataModules`: the modules for codewords, in the order in which they are filled.
- `maskCondition`: the modules that a mask inverts.
-/

namespace Qr

/-- The levels of error correction. -/
inductive Level where
  | L | M | Q | H
  deriving DecidableEq

/-- The indicator of a level in the format. -/
def Level.indicator : Level → Nat
  | L => 1
  | M => 0
  | Q => 3
  | H => 2

/-! ## Patterns -/

/-- How far a module is from another, in rings around it. -/
def ring (c p : Nat × Nat) : Nat :=
  max (max (p.1 - c.1) (c.1 - p.1)) (max (p.2 - c.2) (c.2 - p.2))

theorem ring_le_iff {c p : Nat × Nat} {n : Nat} :
    ring c p ≤ n ↔ p.1 ≤ c.1 + n ∧ c.1 ≤ p.1 + n ∧ p.2 ≤ c.2 + n ∧ c.2 ≤ p.2 + n := by
  rw [ring]
  omega

theorem ring_eq_iff {c p : Nat × Nat} {n : Nat} :
    ring c p = n ↔ (p.1 ≤ c.1 + n ∧ c.1 ≤ p.1 + n ∧ p.2 ≤ c.2 + n ∧ c.2 ≤ p.2 + n) ∧
      (p.1 = c.1 + n ∨ c.1 = p.1 + n ∨ p.2 = c.2 + n ∨ c.2 = p.2 + n) := by
  rw [ring]
  omega

/-- The centres of the finders. -/
def finderCentres (s : Nat) : List (Nat × Nat) := [(3, 3), (s - 4, 3), (3, s - 4)]

theorem mem_finderCentres {s : Nat} {c : Nat × Nat} : c ∈ finderCentres s ↔
    (c.1 = 3 ∧ c.2 = 3) ∨ (c.1 = s - 4 ∧ c.2 = 3) ∨ (c.1 = 3 ∧ c.2 = s - 4) := by
  simp only [finderCentres, List.mem_cons, List.not_mem_nil, or_false, Prod.ext_iff]

/-- The rows and columns of the centres of the alignment patterns, from version 1 on. -/
def alignmentRows : List (List Nat) :=
  [[], [6, 18], [6, 22], [6, 26], [6, 30], [6, 34], [6, 22, 38], [6, 24, 42], [6, 26, 46],
    [6, 28, 50], [6, 30, 54], [6, 32, 58], [6, 34, 62], [6, 26, 46, 66], [6, 26, 48, 70],
    [6, 26, 50, 74], [6, 30, 54, 78], [6, 30, 56, 82], [6, 30, 58, 86], [6, 34, 62, 90],
    [6, 28, 50, 72, 94], [6, 26, 50, 74, 98], [6, 30, 54, 78, 102], [6, 28, 54, 80, 106],
    [6, 32, 58, 84, 110], [6, 30, 58, 86, 114], [6, 34, 62, 90, 118], [6, 26, 50, 74, 98, 122],
    [6, 30, 54, 78, 102, 126], [6, 26, 52, 78, 104, 130], [6, 30, 56, 82, 108, 134],
    [6, 34, 60, 86, 112, 138], [6, 30, 58, 86, 114, 142], [6, 34, 62, 90, 118, 146],
    [6, 30, 54, 78, 102, 126, 150], [6, 24, 50, 76, 102, 128, 154],
    [6, 28, 54, 80, 106, 132, 158], [6, 32, 58, 84, 110, 136, 162],
    [6, 26, 54, 82, 110, 138, 166], [6, 30, 58, 86, 114, 142, 170]]

/-- The centres of the alignment patterns: where a row and a column meet, but for the corners
that the finders are in. -/
def alignmentCentres (version : Nat) : List (Nat × Nat) :=
  let row := alignmentRows.getD (version - 1) []
  (row.flatMap fun x => row.map fun y => (x, y)).filter fun c =>
    (finderCentres (version * 4 + 17)).all fun f => 6 < ring f c

/-! ## Format and version -/

/-- The words of the format, with their check bits, in the order of level indicator and mask. -/
def formatWords : List Nat :=
  [0x5412, 0x5125, 0x5E7C, 0x5B4B, 0x45F9, 0x40CE, 0x4F97, 0x4AA0,
    0x77C4, 0x72F3, 0x7DAA, 0x789D, 0x662F, 0x6318, 0x6C41, 0x6976,
    0x1689, 0x13BE, 0x1CE7, 0x19D0, 0x0762, 0x0255, 0x0D0C, 0x083B,
    0x355F, 0x3068, 0x3F31, 0x3A06, 0x24B4, 0x2183, 0x2EDA, 0x2BED]

/-- The fifteen bits of a format, the least significant one first. -/
def formatBits (level : Level) (mask : Nat) : List Bool :=
  (List.range 15).map (formatWords.getD (8 * level.indicator + mask) 0).testBit

/-- The places of the bits of the format around the first finder. -/
def formatPlaces : List (Nat × Nat) :=
  [(8, 0), (8, 1), (8, 2), (8, 3), (8, 4), (8, 5), (8, 7), (8, 8), (7, 8), (5, 8), (4, 8), (3, 8),
    (2, 8), (1, 8), (0, 8)]

/-- The places of a bit of the format, around the first finder or beside the other two. -/
def formatPlace (s : Nat) (other : Bool) (i : Nat) : Nat × Nat :=
  if other then if i < 8 then (s - 1 - i, 8) else (8, s - 15 + i) else formatPlaces.getD i (0, 0)

/-- The words of the version, with their check bits, from version 7 on. -/
def versionWords : List Nat :=
  [0x07C94, 0x085BC, 0x09A99, 0x0A4D3, 0x0BBF6, 0x0C762, 0x0D847, 0x0E60D, 0x0F928, 0x10B78,
    0x1145D, 0x12A17, 0x13532, 0x149A6, 0x15683, 0x168C9, 0x177EC, 0x18EC4, 0x191E1, 0x1AFAB,
    0x1B08E, 0x1CC1A, 0x1D33F, 0x1ED75, 0x1F250, 0x209D5, 0x216F0, 0x228BA, 0x2379F, 0x24B0B,
    0x2542E, 0x26A64, 0x27541, 0x28C69]

/-- The eighteen bits of a version, the least significant one first. -/
def versionBits (version : Nat) : List Bool :=
  (List.range 18).map (versionWords.getD (version - 7) 0).testBit

/-- The places of a bit of the version, beside the second finder or the third. -/
def versionPlace (s : Nat) (other : Bool) (k : Nat) : Nat × Nat :=
  if other then (k / 3, s - 11 + k % 3) else (s - 11 + k % 3, k / 3)

/-- The modules at `n` places. -/
def modulesAt (f : Nat × Nat → Bool) (n : Nat) (place : Nat → Nat × Nat) : List Bool :=
  (List.range n).map fun i => f (place i)

@[simp] theorem length_formatBits (level : Level) (mask : Nat) :
    (formatBits level mask).length = 15 := by
  rw [formatBits, List.length_map, List.length_range]

@[simp] theorem length_versionBits (version : Nat) : (versionBits version).length = 18 := by
  rw [versionBits, List.length_map, List.length_range]

@[simp] theorem length_modulesAt (f : Nat × Nat → Bool) (n : Nat) (place : Nat → Nat × Nat) :
    (modulesAt f n place).length = n := by
  rw [modulesAt, List.length_map, List.length_range]

/-- A picture has what a scanner looks for in the symbols of a version. -/
structure HasLandmarks (version : Nat) (level : Level) (mask : Nat) (f : Nat × Nat → Bool) :
    Prop where
  /-- A finder is a black ring around a black square, with a white ring around it. -/
  finder : ∀ c ∈ finderCentres (version * 4 + 17), ∀ p, p.1 < version * 4 + 17 →
    p.2 < version * 4 + 17 → ring c p ≤ 4 → f p = decide (ring c p ≠ 2 ∧ ring c p ≠ 4)
  /-- Between the finders the timing lines are black and white in turn. -/
  timing : ∀ i, 8 ≤ i → i + 8 < version * 4 + 17 →
    f (6, i) = decide (i % 2 = 0) ∧ f (i, 6) = decide (i % 2 = 0)
  /-- An alignment pattern is a black ring around a black module. -/
  alignment : ∀ c ∈ alignmentCentres version, ∀ p, ring c p ≤ 2 → f p = decide (ring c p ≠ 1)
  versionWord : 7 ≤ version → ∀ other,
    modulesAt f 18 (versionPlace (version * 4 + 17) other) = versionBits version
  formatWord : ∀ other,
    modulesAt f 15 (formatPlace (version * 4 + 17) other) = formatBits level mask
  /-- One module is always black. -/
  dark : f (8, version * 4 + 17 - 8) = true

/-! ## The modules for codewords -/

/-- The modules that are not for codewords. -/
def Reserved (version : Nat) (p : Nat × Nat) : Prop :=
  (∃ c ∈ finderCentres (version * 4 + 17), ring c p ≤ 4) ∨ p.1 = 6 ∨ p.2 = 6 ∨
    (∃ c ∈ alignmentCentres version, ring c p ≤ 2) ∨
    (∃ other, ∃ i < 15, p = formatPlace (version * 4 + 17) other i) ∨
    p = (8, version * 4 + 17 - 8) ∨
    7 ≤ version ∧ ∃ other, ∃ k < 18, p = versionPlace (version * 4 + 17) other k

instance (version : Nat) (p : Nat × Nat) : Decidable (Reserved version p) := by
  unfold Reserved
  infer_instance

theorem exists_formatPlace {s : Nat} (hs : 21 ≤ s) {p : Nat × Nat} :
    (∃ other, ∃ i < 15, p = formatPlace s other i) ↔
      (p.1 = 8 ∧ p.2 ≤ 8 ∧ p.2 ≠ 6) ∨ (p.2 = 8 ∧ p.1 ≤ 8 ∧ p.1 ≠ 6) ∨
        (p.2 = 8 ∧ s ≤ p.1 + 8 ∧ p.1 < s) ∨ (p.1 = 8 ∧ s ≤ p.2 + 7 ∧ p.2 < s) := by
  obtain ⟨x, y⟩ := p
  simp only [Bool.exists_bool, formatPlace, Bool.false_eq_true, if_false, if_true]
  constructor
  · rintro (⟨i, hi, h⟩ | ⟨i, hi, h⟩)
    · have hall : ∀ i < 15, ((formatPlaces.getD i (0, 0)).1 = 8 ∧
          (formatPlaces.getD i (0, 0)).2 ≤ 8 ∧ (formatPlaces.getD i (0, 0)).2 ≠ 6) ∨
          ((formatPlaces.getD i (0, 0)).2 = 8 ∧ (formatPlaces.getD i (0, 0)).1 ≤ 8 ∧
            (formatPlaces.getD i (0, 0)).1 ≠ 6) := by decide
      have hplace := hall i hi
      rw [← h] at hplace
      exact hplace.imp_right .inl
    · split at h
      · simp only [Prod.mk.injEq] at h
        omega
      · simp only [Prod.mk.injEq] at h
        omega
  · rintro (⟨rfl, hy, h6⟩ | ⟨rfl, hx, h6⟩ | ⟨rfl, hge, hlt⟩ | ⟨rfl, hge, hlt⟩)
    · refine .inl ⟨if y < 6 then y else y - 1, by split <;> omega, ?_⟩
      interval_cases y <;> first | rfl | exact absurd rfl h6
    · refine .inl ⟨if x < 6 then 14 - x else 15 - x, by split <;> omega, ?_⟩
      interval_cases x <;> first | rfl | exact absurd rfl h6
    · refine .inr ⟨s - 1 - x, by omega, ?_⟩
      rw [if_pos (by omega)]
      exact Prod.ext (by simp only; omega) rfl
    · refine .inr ⟨y + 15 - s, by omega, ?_⟩
      rw [if_neg (by omega)]
      exact Prod.ext rfl (by simp only; omega)

theorem exists_versionPlace {s : Nat} (hs : 21 ≤ s) {p : Nat × Nat} :
    (∃ other, ∃ k < 18, p = versionPlace s other k) ↔
      (p.2 < 6 ∧ s ≤ p.1 + 11 ∧ p.1 + 8 < s) ∨ (p.1 < 6 ∧ s ≤ p.2 + 11 ∧ p.2 + 8 < s) := by
  obtain ⟨x, y⟩ := p
  simp only [Bool.exists_bool, versionPlace, Bool.false_eq_true, if_false, if_true, Prod.mk.injEq]
  constructor
  · rintro (⟨k, hk, rfl, rfl⟩ | ⟨k, hk, rfl, rfl⟩) <;> omega
  · rintro (⟨hy, hge, hlt⟩ | ⟨hx, hge, hlt⟩)
    · exact .inl ⟨3 * y + (x + 11 - s), by omega, by omega, by omega⟩
    · exact .inr ⟨3 * x + (y + 11 - s), by omega, by omega, by omega⟩

/-- The order of the modules: pairs of columns from the right, up and down in turns, the right
one of both first. The column of the timing line is in no pair. -/
def placement (s : Nat) : List (Nat × Nat) :=
  (List.range ((s - 1) / 2)).flatMap fun k =>
    let x := if 2 * k + 7 < s then s - 1 - 2 * k else s - 2 - 2 * k
    (List.range s).flatMap fun v =>
      let y := if k % 2 = 0 then s - 1 - v else v
      [(x, y), (x - 1, y)]

/-- The modules for codewords, in their order. -/
def dataModules (version : Nat) : List (Nat × Nat) :=
  (placement (version * 4 + 17)).filter fun p => ¬ Reserved version p

/-! ## Masks -/

/-- A mask inverts the modules for codewords in the rows `i` and columns `j` that meet its
condition. -/
def maskCondition (mask i j : Nat) : Prop :=
  match mask with
  | 0 => (i + j) % 2 = 0
  | 1 => i % 2 = 0
  | 2 => j % 3 = 0
  | 3 => (i + j) % 3 = 0
  | 4 => (i / 2 + j / 3) % 2 = 0
  | 5 => i * j % 2 + i * j % 3 = 0
  | 6 => (i * j % 2 + i * j % 3) % 2 = 0
  | 7 => ((i + j) % 2 + i * j % 3) % 2 = 0
  | _ => False

instance (mask i j : Nat) : Decidable (maskCondition mask i j) := by
  unfold maskCondition
  split <;> infer_instance

end Qr
