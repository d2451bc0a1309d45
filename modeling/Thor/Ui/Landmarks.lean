import Thor.Ui.Reader

/-!
# The landmarks of a symbol (ui/qr_generator.c)

What a scanner looks for before it can read: the finders, the timing lines, the alignment
patterns, and the version and the format, each twice. They are drawn in several layers, some
of them across each other, and behind them come the codewords, the mask and the format.

- `mem_whiteWrites`: what the white layer draws, by the landmark it belongs to.
- `symbol_hasLandmarks`: no layer spoils the landmarks of another, and all of them are where the
  standard has them.
- `encodeSegmentsAdvanced_landmarks`, `encodeSegmentsAdvanced_readable`: so it is in the symbol
  of every call.
-/

namespace Thor

open CLib
open Qr (ring ring_le_iff ring_eq_iff finderCentres mem_finderCentres)

/-- The places of a bit of the version: this one, and the one with row and column exchanged. -/
def versionPlace (s k : Nat) : Nat × Nat := (s - 11 + k % 3, k / 3)

/-! ## Where the alignment patterns are -/

theorem alignment_positions {version : Nat} (h : IsVersion version) :
    (∀ p ∈ getAlignmentPatternPositions version, p % 2 = 0) ∧
      (getAlignmentPatternPositions version).Pairwise (fun p p' => p + 12 ≤ p') := by
  have hall : ∀ v ≤ 40, 1 ≤ v → (∀ p ∈ getAlignmentPatternPositions v, p % 2 = 0) ∧
      (getAlignmentPatternPositions v).Pairwise (fun p p' => p + 12 ≤ p') := by
    decide
  exact hall version h.2 h.1

/-- An alignment pattern is on a timing line between the finders, or away from both lines. -/
theorem centre_place {version : Nat} (h : IsVersion version) {ij : Nat × Nat}
    (hij : ij ∈ alignmentPairs version) {c : Nat × Nat} (hc : alignmentCentre version ij = c) :
    (c.1 % 2 = 0 ∧ c.2 % 2 = 0 ∧ c.1 + 7 ≤ version * 4 + 17 ∧ c.2 + 7 ≤ version * 4 + 17) ∧
      ((c.2 = 6 ∧ 16 ≤ c.1 ∧ c.1 + 19 ≤ version * 4 + 17) ∨
        (c.1 = 6 ∧ 16 ≤ c.2 ∧ c.2 + 19 ≤ version * 4 + 17) ∨ (16 ≤ c.1 ∧ 16 ≤ c.2)) := by
  subst hc
  obtain ⟨heven, hsteps⟩ := alignment_positions h
  obtain ⟨hi, hj, -⟩ := mem_alignmentPairs.1 hij
  obtain ⟨hrow, hcol⟩ := centre_on_timing h hij
  have hbounds := centre_bounds h hij
  have hget : ∀ {k}, k < (getAlignmentPatternPositions version).length →
      (getAlignmentPatternPositions version).getD k 0 % 2 = 0 := by
    intro k hk
    rw [List.getD_eq_getElem _ _ hk]
    exact heven _ (List.getElem_mem hk)
  -- a position behind the first
  have hstep : ∀ {k}, k < (getAlignmentPatternPositions version).length → k ≠ 0 →
      16 ≤ (getAlignmentPatternPositions version).getD k 0 := by
    intro k hk h0
    have hlt := List.pairwise_iff_getElem.1 hsteps 0 k (by omega) hk (by omega)
    have hfirst := first_position h (by omega)
    rw [List.getD_eq_getElem _ _ (by omega)] at hfirst
    rw [List.getD_eq_getElem _ _ hk]
    omega
  refine ⟨⟨hget hi, hget hj, hbounds.2.1, hbounds.2.2.2⟩, ?_⟩
  by_cases h2 : ij.2 = 0
  · exact .inl (hrow h2)
  by_cases h1 : ij.1 = 0
  · exact .inr (.inl (hcol h1))
  · exact .inr (.inr ⟨hstep hi h1, hstep hj h2⟩)

/-- Two alignment patterns do not meet. -/
theorem centre_unique {version : Nat} (h : IsVersion version) {ij kl p : Nat × Nat}
    (hij : ij ∈ alignmentPairs version) (hkl : kl ∈ alignmentPairs version)
    (hp : ring (alignmentCentre version ij) p ≤ 2)
    (hp' : ring (alignmentCentre version kl) p ≤ 2) : ij = kl := by
  obtain ⟨-, hsteps⟩ := alignment_positions h
  obtain ⟨hi, hj, -⟩ := mem_alignmentPairs.1 hij
  obtain ⟨hk, hl, -⟩ := mem_alignmentPairs.1 hkl
  have hapart : ∀ {a b}, a < (getAlignmentPatternPositions version).length →
      b < (getAlignmentPatternPositions version).length → a < b →
      (getAlignmentPatternPositions version).getD a 0 + 12 ≤
        (getAlignmentPatternPositions version).getD b 0 := by
    intro a b ha hb hab
    rw [List.getD_eq_getElem _ _ ha, List.getD_eq_getElem _ _ hb]
    exact List.pairwise_iff_getElem.1 hsteps a b ha hb hab
  simp only [ring_le_iff, alignmentCentre] at hp hp'
  refine Prod.ext ?_ ?_
  · rcases Nat.lt_trichotomy ij.1 kl.1 with hlt | heq | hgt
    · have := hapart hi hk hlt
      omega
    · exact heq
    · have := hapart hk hi hgt
      omega
  · rcases Nat.lt_trichotomy ij.2 kl.2 with hlt | heq | hgt
    · have := hapart hj hl hlt
      omega
    · exact heq
    · have := hapart hl hj hgt
      omega

/-! ## The white layer -/

/-- A write of the white layer, by its landmark. -/
inductive WhiteWrite (version : Nat) (w : (Nat × Nat) × Bool) : Prop
  | timing (i : Nat) (odd : i % 2 = 1) (ge : 7 ≤ i) (le : i + 8 ≤ version * 4 + 17)
      (place : w.1 = (6, i) ∨ w.1 = (i, 6)) (white : w.2 = false)
  | finder (c : Nat × Nat) (mem : c ∈ finderCentres (version * 4 + 17))
      (x_lt : w.1.1 < version * 4 + 17) (y_lt : w.1.2 < version * 4 + 17)
      (on : ring c w.1 = 2 ∨ ring c w.1 = 4) (white : w.2 = false)
  | alignment (ij : Nat × Nat) (mem : ij ∈ alignmentPairs version)
      (near : ring (alignmentCentre version ij) w.1 ≤ 1)
      (centre : w.2 = decide (ring (alignmentCentre version ij) w.1 ≠ 1))
  | versionBit (seven : 7 ≤ version) (k : Nat) (lt : k < 18)
      (place : w.1 = versionPlace (version * 4 + 17) k ∨
        w.1 = (versionPlace (version * 4 + 17) k).swap)
      (bit : w.2 = getBit (versionBits version) k)

theorem mem_boundedWrite {s : Nat} {x y : Int} {c : Bool} {w : (Nat × Nat) × Bool} :
    w ∈ boundedWrite s x y c ↔ (w.1.1 : Int) = x ∧ (w.1.2 : Int) = y ∧ w.1.1 < s ∧ w.1.2 < s ∧
      w.2 = c := by
  obtain ⟨⟨a, b⟩, d⟩ := w
  rw [boundedWrite]
  split
  · rw [List.mem_singleton, Prod.mk.injEq, Prod.mk.injEq]
    constructor
    · rintro ⟨⟨rfl, rfl⟩, rfl⟩
      refine ⟨?_, ?_, ?_, ?_, rfl⟩ <;> simp only <;> omega
    · rintro ⟨h1, h2, -, -, rfl⟩
      refine ⟨⟨?_, ?_⟩, rfl⟩ <;> simp only at h1 h2 <;> omega
  · simp only [List.not_mem_nil, false_iff]
    rintro ⟨h1, h2, h3, h4, -⟩
    omega

theorem mem_timingWrites {s : Nat} (hodd : s % 2 = 1) {w : (Nat × Nat) × Bool} :
    w ∈ timingWrites s ↔ (∃ i, i % 2 = 1 ∧ 7 ≤ i ∧ i + 8 ≤ s ∧ (w.1 = (6, i) ∨ w.1 = (i, 6))) ∧
      w.2 = false := by
  simp only [timingWrites, List.mem_flatMap, List.mem_range, List.mem_cons, List.not_mem_nil,
    or_false]
  constructor
  · rintro ⟨k, hk, rfl | rfl⟩
    · exact ⟨⟨7 + 2 * k, by omega, by omega, by omega, .inl rfl⟩, rfl⟩
    · exact ⟨⟨7 + 2 * k, by omega, by omega, by omega, .inr rfl⟩, rfl⟩
  · rintro ⟨⟨i, h1, h2, h3, hplace⟩, hwhite⟩
    refine ⟨(i - 7) / 2, by omega, ?_⟩
    rw [show 7 + 2 * ((i - 7) / 2) = i by omega]
    exact hplace.imp (fun h => Prod.ext h hwhite) fun h => Prod.ext h hwhite

/-- The loops over a square around a centre draw the rings that they ask for. -/
theorem mem_ringWrites {s : Nat} {x y : Int} {c : Nat × Nat} (hx : x = c.1) (hy : y = c.2)
    {w : (Nat × Nat) × Bool} :
    (∃ j < 9, ∃ i < 9, (ringOf i j = 2 ∨ ringOf i j = 4) ∧
      w ∈ boundedWrite s (x + ((i : Int) - 4)) (y + ((j : Int) - 4)) false) ↔
      w.1.1 < s ∧ w.1.2 < s ∧ w.2 = false ∧ (ring c w.1 = 2 ∨ ring c w.1 = 4) := by
  subst hx hy
  have hring : ∀ {i j : Nat}, (w.1.1 : Int) = c.1 + ((i : Int) - 4) →
      (w.1.2 : Int) = c.2 + ((j : Int) - 4) → ringOf i j = ring c w.1 := by
    intro i j h1 h2
    rw [ringOf, ring]
    omega
  simp only [mem_boundedWrite]
  constructor
  · rintro ⟨j, -, i, -, hon, h1, h2, h3, h4, hwhite⟩
    rw [hring h1 h2] at hon
    exact ⟨h3, h4, hwhite, hon⟩
  · rintro ⟨h3, h4, hwhite, hon⟩
    have hnear := ring_le_iff.1 (show ring c w.1 ≤ 4 by omega)
    refine ⟨w.1.2 + 4 - c.2, by omega, w.1.1 + 4 - c.1, by omega, ?_, by omega, by omega, h3, h4,
      hwhite⟩
    rw [hring (by omega) (by omega)]
    exact hon

/-- The rings of the finders, as far as they are inside of the symbol. -/
theorem mem_finderWrites {s : Nat} (hs : 21 ≤ s) {w : (Nat × Nat) × Bool} :
    w ∈ finderWrites s ↔ w.1.1 < s ∧ w.1.2 < s ∧ w.2 = false ∧
      ∃ c ∈ finderCentres s, ring c w.1 = 2 ∨ ring c w.1 = 4 := by
  have hcorner := mem_ringWrites (s := s) (x := 3) (y := 3) (c := (3, 3)) rfl rfl (w := w)
  have hright := mem_ringWrites (s := s) (x := s - 4) (y := 3) (c := (s - 4, 3))
    (by simp only; omega) rfl (w := w)
  have hbelow := mem_ringWrites (s := s) (x := 3) (y := s - 4) (c := (3, s - 4)) rfl
    (by simp only; omega) (w := w)
  simp only [finderCentres, List.mem_cons, List.not_mem_nil, or_false, exists_eq_or_imp,
    exists_eq_left]
  simp only [finderWrites, List.mem_flatMap, List.mem_range]
  constructor
  · rintro ⟨j, hj, i, hi, hw⟩
    split at hw
    · next hon =>
      rw [List.mem_append, List.mem_append] at hw
      rcases hw with hw | hw | hw
      · obtain ⟨h1, h2, h3, hring⟩ := hcorner.1 ⟨j, hj, i, hi, hon, hw⟩
        exact ⟨h1, h2, h3, .inl hring⟩
      · obtain ⟨h1, h2, h3, hring⟩ := hright.1 ⟨j, hj, i, hi, hon, hw⟩
        exact ⟨h1, h2, h3, .inr (.inl hring)⟩
      · obtain ⟨h1, h2, h3, hring⟩ := hbelow.1 ⟨j, hj, i, hi, hon, hw⟩
        exact ⟨h1, h2, h3, .inr (.inr hring)⟩
    · simp at hw
  · rintro ⟨h1, h2, h3, hring | hring | hring⟩
    · obtain ⟨j, hj, i, hi, hon, hw⟩ := hcorner.2 ⟨h1, h2, h3, hring⟩
      refine ⟨j, hj, i, hi, ?_⟩
      rw [if_pos hon]
      exact List.mem_append_left _ hw
    · obtain ⟨j, hj, i, hi, hon, hw⟩ := hright.2 ⟨h1, h2, h3, hring⟩
      refine ⟨j, hj, i, hi, ?_⟩
      rw [if_pos hon]
      exact List.mem_append_right _ (List.mem_append_left _ hw)
    · obtain ⟨j, hj, i, hi, hon, hw⟩ := hbelow.2 ⟨h1, h2, h3, hring⟩
      refine ⟨j, hj, i, hi, ?_⟩
      rw [if_pos hon]
      exact List.mem_append_right _ (List.mem_append_right _ hw)

theorem mem_centreWrites {c : Nat × Nat} (hx : 1 ≤ c.1) (hy : 1 ≤ c.2)
    {w : (Nat × Nat) × Bool} :
    w ∈ centreWrites c ↔ ring c w.1 ≤ 1 ∧ w.2 = decide (ring c w.1 ≠ 1) := by
  obtain ⟨⟨x, y⟩, d⟩ := w
  simp only [centreWrites, List.mem_flatMap, List.mem_range, List.mem_singleton]
  constructor
  · rintro ⟨dy, hdy, dx, hdx, heq⟩
    obtain ⟨⟨rfl, rfl⟩, rfl⟩ : (x = c.1 + dx - 1 ∧ y = c.2 + dy - 1) ∧ d = _ := by
      simpa only [Prod.mk.injEq] using heq
    refine ⟨?_, decide_eq_decide.2 ?_⟩ <;> simp only [ring] <;> omega
  · rintro ⟨hnear, hcolor⟩
    simp only [ring] at hnear
    refine ⟨y + 1 - c.2, by omega, x + 1 - c.1, by omega, Prod.ext (Prod.ext ?_ ?_) ?_⟩
    · simp only
      omega
    · simp only
      omega
    · refine hcolor.trans (decide_eq_decide.2 ?_)
      simp only [ring]
      omega

theorem mem_versionWrites {version : Nat} {w : (Nat × Nat) × Bool} :
    w ∈ versionWrites version ↔ 7 ≤ version ∧ ∃ k < 18,
      (w.1 = versionPlace (version * 4 + 17) k ∨ w.1 = (versionPlace (version * 4 + 17) k).swap) ∧
        w.2 = getBit (versionBits version) k := by
  rw [versionWrites]
  split
  · next h7 =>
    simp only [List.mem_flatMap, List.mem_range, List.mem_cons, List.not_mem_nil, or_false,
      versionPlace, Prod.swap_prod_mk]
    constructor
    · rintro ⟨i, hi, j, hj, hw⟩
      refine ⟨h7, 3 * i + j, by omega, ?_⟩
      rw [show (3 * i + j) % 3 = j by omega, show (3 * i + j) / 3 = i by omega]
      rcases hw with rfl | rfl
      · exact ⟨.inl rfl, rfl⟩
      · exact ⟨.inr rfl, rfl⟩
    · rintro ⟨-, k, hk, hplace, hbit⟩
      refine ⟨k / 3, by omega, k % 3, by omega, ?_⟩
      rw [Nat.div_add_mod]
      exact hplace.imp (fun h => Prod.ext h hbit) fun h => Prod.ext h hbit
  · next h7 =>
    simp only [List.not_mem_nil, false_iff]
    rintro ⟨h, -⟩
    exact h7 h

theorem mem_whiteWrites {version : Nat} (h : IsVersion version) {w : (Nat × Nat) × Bool} :
    w ∈ whiteWrites version ↔ WhiteWrite version w := by
  have hside := isVersion_side h
  have hcentre : ∀ ij ∈ alignmentPairs version, w ∈ centreWrites (alignmentCentre version ij) ↔
      ring (alignmentCentre version ij) w.1 ≤ 1 ∧
        w.2 = decide (ring (alignmentCentre version ij) w.1 ≠ 1) := by
    intro ij hij
    have hbounds := centre_bounds h hij
    exact mem_centreWrites (by omega) (by omega)
  rw [whiteWrites, List.mem_append, List.mem_append, List.mem_append, List.mem_flatMap,
    mem_timingWrites (by omega), mem_finderWrites hside.1, mem_versionWrites]
  constructor
  · rintro (⟨⟨i, h1, h2, h3, hplace⟩, hwhite⟩ | ⟨hx, hy, hwhite, c, hc, hring⟩ | ⟨ij, hij, hw⟩ |
      ⟨h7, k, hk, hplace, hbit⟩)
    · exact .timing i h1 h2 h3 hplace hwhite
    · exact .finder c hc hx hy hring hwhite
    · obtain ⟨hnear, hwhite⟩ := (hcentre ij hij).1 hw
      exact .alignment ij hij hnear hwhite
    · exact .versionBit h7 k hk hplace hbit
  · intro hw
    cases hw with
    | timing i h1 h2 h3 hplace hwhite => exact .inl ⟨⟨i, h1, h2, h3, hplace⟩, hwhite⟩
    | finder c hc hx hy hring hwhite => exact .inr (.inl ⟨hx, hy, hwhite, c, hc, hring⟩)
    | alignment ij hij hnear hwhite =>
      exact .inr (.inr (.inl ⟨ij, hij, (hcentre ij hij).2 ⟨hnear, hwhite⟩⟩))
    | versionBit h7 k hk hplace hbit => exact .inr (.inr (.inr ⟨h7, k, hk, hplace, hbit⟩))

/-! ## The layers behind -/

/-- The function modules without the format. -/
def fixedModules (version : Nat) : Nat × Nat → Bool :=
  writeAll (fun p => decide (IsFunction version p)) (whiteWrites version)

/-- Codewords and mask leave the function modules alone. -/
theorem symbol_of_isFunction {version : Nat} {p : Nat × Nat} (hp : IsFunction version p)
    (hformat : ∀ w ∈ formatWrites (version * 4 + 17) 0, w.1 ≠ p) (ecl : Ecc) (mask : Nat)
    (code : Bytes) : symbol version ecl mask code p = fixedModules version p := by
  have hmask : symbol version ecl mask code p = unmasked version code p := by
    refine (writeAll_of_notMem (formatPlaces_same _ hformat)).trans (if_neg ?_)
    rintro ⟨-, -, hfalse⟩
    exact absurd hp (of_decide_eq_false hfalse)
  rw [hmask, unmasked, fixedModules]
  have hcode : writeAll (fun p => decide (IsFunction version p))
      (codewordWrites (fun p => decide (IsFunction version p)) (zigzag (version * 4 + 17)) code
        (rawDataModules version / 8)) p = decide (IsFunction version p) := by
    refine writeAll_of_notMem fun w hw heq => ?_
    have hfalse := (mem_of_mem_codewordWrites hw).2
    rw [heq] at hfalse
    exact absurd hp (of_decide_eq_false hfalse)
  exact writeAll_congr_at hcode

/-- A function module has the colour that the white layer gives it, and is black without. -/
theorem fixedModules_eq {version : Nat} (h : IsVersion version) {p : Nat × Nat} {c : Bool}
    (hp : IsFunction version p) (hall : ∀ d, WhiteWrite version (p, d) → d = c)
    (hwhite : c = false → WhiteWrite version (p, false)) : fixedModules version p = c := by
  have hagree : ∀ w ∈ whiteWrites version, w.1 = p → w.2 = c := by
    rintro ⟨p', d⟩ hw rfl
    exact hall d ((mem_whiteWrites h).1 hw)
  cases c with
  | false => exact writeAll_of_mem ((mem_whiteWrites h).2 (hwhite rfl)) hagree
  | true =>
    by_cases hdrawn : ∃ w ∈ whiteWrites version, w.1 = p
    · obtain ⟨⟨p', d⟩, hw, rfl⟩ := hdrawn
      obtain rfl : d = true := hagree _ hw rfl
      exact writeAll_of_mem hw hagree
    · push Not at hdrawn
      rw [fixedModules, writeAll_of_notMem hdrawn]
      exact decide_eq_true hp

/-- The format is in the row and the column behind the finders, but for the timing lines. -/
theorem formatWrites_place {s bits : Nat} (hs : 21 ≤ s) {w : (Nat × Nat) × Bool}
    (hw : w ∈ formatWrites s bits) :
    (w.1.1 = 8 ∧ w.1.2 ≠ 6 ∧ (w.1.2 ≤ 8 ∨ s ≤ w.1.2 + 8)) ∨
      (w.1.2 = 8 ∧ w.1.1 ≠ 6 ∧ (w.1.1 ≤ 8 ∨ s ≤ w.1.1 + 8)) := by
  obtain ⟨⟨x, y⟩, d⟩ := w
  show (x = 8 ∧ y ≠ 6 ∧ (y ≤ 8 ∨ s ≤ y + 8)) ∨ (y = 8 ∧ x ≠ 6 ∧ (x ≤ 8 ∨ s ≤ x + 8))
  have hplace := mem_formatWrites.1 hw
  simp only [formatPlace, formatPlaceOther, Prod.mk.injEq] at hplace
  rcases hplace with ⟨i, hi, hplace, -⟩ | ⟨i, hi, hplace, -⟩ | ⟨hplace, -⟩
  · split_ifs at hplace <;> rw [Prod.mk.injEq] at hplace <;> omega
  · split_ifs at hplace <;> rw [Prod.mk.injEq] at hplace <;> omega
  · omega

/-- A module away from the format has what the fixed layers give it. -/
theorem symbol_landmark {version : Nat} (h : IsVersion version) {p : Nat × Nat} {c : Bool}
    (hp : IsFunction version p)
    (hformat : ¬ (p.1 = 8 ∧ p.2 ≠ 6 ∧ (p.2 ≤ 8 ∨ version * 4 + 17 ≤ p.2 + 8)) ∧
      ¬ (p.2 = 8 ∧ p.1 ≠ 6 ∧ (p.1 ≤ 8 ∨ version * 4 + 17 ≤ p.1 + 8)))
    (hall : ∀ d, WhiteWrite version (p, d) → d = c)
    (hwhite : c = false → WhiteWrite version (p, false)) (ecl : Ecc) (mask : Nat) (code : Bytes) :
    symbol version ecl mask code p = c := by
  rw [symbol_of_isFunction hp, fixedModules_eq h hp hall hwhite]
  rintro w hw rfl
  exact (formatWrites_place (isVersion_side h).1 hw).elim hformat.1 hformat.2

/-! ## The landmarks -/

section

variable {version : Nat} (h : IsVersion version) (ecl : Ecc) (mask : Nat) (code : Bytes)

include h

theorem symbol_finder {c : Nat × Nat} (hc : c ∈ finderCentres (version * 4 + 17)) {p : Nat × Nat}
    (hx : p.1 < version * 4 + 17) (hy : p.2 < version * 4 + 17) (hring : ring c p ≤ 4) :
    symbol version ecl mask code p = decide (ring c p ≠ 2 ∧ ring c p ≠ 4) := by
  have hside := isVersion_side h
  have hcentre := mem_finderCentres.1 hc
  have hnear := ring_le_iff.1 hring
  have hp : IsFunction version p := by
    rcases hcentre with hc | hc | hc
    · exact isFunction_upperLeft version (by omega) (by omega)
    · exact isFunction_upperRight version (by omega) hx (by omega)
    · exact isFunction_lowerLeft version (by omega) (by omega) hy
  refine symbol_landmark h hp ?_ ?_ ?_ ecl mask code
  · omega
  · intro d hd
    cases hd with
    | timing i hodd hge hle hplace' hwhite =>
      -- a timing line begins at the outer ring of a finder
      refine hwhite.trans (decide_eq_false ?_).symm
      simp only [Prod.ext_iff] at hplace'
      simp only [ring_le_iff, ring_eq_iff, ne_eq] at *
      omega
    | finder c' hc' hx' hy' hon hwhite =>
      have hplace' := mem_finderCentres.1 hc'
      refine hwhite.trans (decide_eq_false ?_).symm
      simp only [ring_le_iff, ring_eq_iff, ne_eq] at *
      omega
    | alignment ij hij hnear =>
      obtain ⟨hbounds, hcentre⟩ := centre_place h hij rfl
      simp only [ring_le_iff, ring_eq_iff, ne_eq] at *
      omega
    | versionBit h7 k hk hplace' =>
      simp only [versionPlace, Prod.swap_prod_mk, Prod.ext_iff] at hplace'
      simp only [ring_le_iff, ring_eq_iff, ne_eq] at *
      omega
  · intro hfalse
    have hon : ring c p = 2 ∨ ring c p = 4 := by
      have := of_decide_eq_false hfalse
      omega
    exact .finder c hc hx hy hon rfl

theorem symbol_timing {i : Nat} (hge : 8 ≤ i) (hle : i + 8 < version * 4 + 17) {p : Nat × Nat}
    (hplace : p = (6, i) ∨ p = (i, 6)) :
    symbol version ecl mask code p = decide (i % 2 = 0) := by
  have hside := isVersion_side h
  have hp : IsFunction version p := by
    rcases hplace with rfl | rfl
    · exact isFunction_of_has (r := ⟨6, 0, 1, version * 4 + 17⟩) (by simp [functionRects])
        ⟨by simp, by simp, by simp, by simp only; omega⟩
    · exact isFunction_of_has (r := ⟨0, 6, version * 4 + 17, 1⟩) (by simp [functionRects])
        ⟨by simp, by simp only; omega, by simp, by simp⟩
  rw [Prod.ext_iff, Prod.ext_iff] at hplace
  refine symbol_landmark h hp (by omega) ?_ ?_ ecl mask code
  · intro d hd
    cases hd with
    | timing j hodd hge' hle' hplace' hwhite =>
      refine hwhite.trans (decide_eq_false ?_).symm
      simp only [Prod.ext_iff] at hplace'
      omega
    | finder c' hc' hx' hy' hon hwhite =>
      have hcentre := mem_finderCentres.1 hc'
      simp only [ring_eq_iff] at *
      omega
    | alignment ij hij hnear hcolor =>
      -- the line goes through the pattern, where both have the same colours
      obtain ⟨hbounds, hcentre⟩ := centre_place h hij rfl
      refine hcolor.trans (decide_eq_decide.2 ?_)
      simp only [ring_le_iff, ring_eq_iff, ne_eq] at *
      omega
    | versionBit h7 k hk hplace' =>
      simp only [versionPlace, Prod.swap_prod_mk, Prod.ext_iff] at hplace'
      omega
  · intro hfalse
    have hodd : i % 2 = 1 := by
      have := of_decide_eq_false hfalse
      omega
    refine .timing i hodd (by omega) (by omega) ?_ rfl
    simp only [Prod.ext_iff]
    exact hplace

theorem symbol_alignment {ij : Nat × Nat} (hij : ij ∈ alignmentPairs version) {p : Nat × Nat}
    (hring : ring (alignmentCentre version ij) p ≤ 2) :
    symbol version ecl mask code p = decide (ring (alignmentCentre version ij) p ≠ 1) := by
  have hside := isVersion_side h
  obtain ⟨hbounds, hcentre⟩ := centre_place h hij rfl
  have hp : IsFunction version p := by
    refine isFunction_of_has (r := alignmentRect (alignmentCentre version ij)) ?_ ?_
    · simp only [functionRects, List.mem_append, List.mem_map]
      exact .inl (.inr ⟨ij, hij, rfl⟩)
    · simp only [ring_le_iff] at hring
      simp only [alignmentRect, Rect.Has]
      omega
  refine symbol_landmark h hp ?_ ?_ ?_ ecl mask code
  · simp only [ring_le_iff] at hring
    omega
  · intro d hd
    cases hd with
    | timing j hodd hge hle hplace hwhite =>
      refine hwhite.trans (decide_eq_false ?_).symm
      simp only [Prod.ext_iff] at hplace
      simp only [ring_le_iff, ring_eq_iff, ne_eq] at *
      omega
    | finder c' hc' hx' hy' hon hwhite =>
      have hcentre := mem_finderCentres.1 hc'
      simp only [ring_le_iff, ring_eq_iff, ne_eq] at *
      omega
    | alignment kl hkl hnear hcolor =>
      obtain rfl := centre_unique h hij hkl hring (Nat.le_succ_of_le hnear)
      exact hcolor
    | versionBit h7 k hk hplace =>
      simp only [versionPlace, Prod.swap_prod_mk, Prod.ext_iff] at hplace
      simp only [ring_le_iff, ring_eq_iff, ne_eq] at *
      omega
  · intro hfalse
    have hone : ring (alignmentCentre version ij) p = 1 := by
      have := of_decide_eq_false hfalse
      omega
    refine .alignment ij hij (Nat.le_of_eq hone) (decide_eq_false ?_).symm
    exact not_not.2 hone

theorem symbol_version (h7 : 7 ≤ version) {k : Nat} (hk : k < 18) {p : Nat × Nat}
    (hplace : p = versionPlace (version * 4 + 17) k ∨
      p = (versionPlace (version * 4 + 17) k).swap) :
    symbol version ecl mask code p = getBit (versionBits version) k := by
  have hp : IsFunction version p := by
    rcases hplace with rfl | rfl
    · refine isFunction_of_has (r := ⟨version * 4 + 17 - 11, 0, 3, 6⟩) ?_ ?_
      · simp [functionRects, h7]
      · simp only [Rect.Has, versionPlace]
        omega
    · refine isFunction_of_has (r := ⟨0, version * 4 + 17 - 11, 6, 3⟩) ?_ ?_
      · simp [functionRects, h7]
      · simp only [Rect.Has, versionPlace, Prod.swap_prod_mk]
        omega
  have hplace' := hplace
  simp only [versionPlace, Prod.swap_prod_mk, Prod.ext_iff] at hplace'
  refine symbol_landmark h hp (by omega) ?_ ?_ ecl mask code
  · intro d hd
    cases hd with
    | timing j hodd hge hle hplace =>
      simp only [Prod.ext_iff] at hplace
      omega
    | finder c' hc' hx' hy' hon hwhite =>
      have hcentre := mem_finderCentres.1 hc'
      simp only [ring_eq_iff] at *
      omega
    | alignment ij hij hnear =>
      obtain ⟨hbounds, hcentre⟩ := centre_place h hij rfl
      simp only [ring_le_iff, ring_eq_iff, ne_eq] at *
      omega
    | versionBit _ j hj hplace hbit =>
      obtain rfl : j = k := by
        simp only [versionPlace, Prod.swap_prod_mk, Prod.ext_iff] at hplace
        omega
      exact hbit
  · intro hfalse
    exact .versionBit h7 k hk hplace hfalse.symm

theorem symbol_hasLandmarks (hmask : mask ≤ 7) :
    Qr.HasLandmarks version ecl.standard mask (symbol version ecl mask code) where
  finder _ hc _ hx hy hring := symbol_finder h ecl mask code hc hx hy hring
  timing _ hge hle := ⟨symbol_timing h ecl mask code hge hle (.inl rfl),
    symbol_timing h ecl mask code hge hle (.inr rfl)⟩
  alignment c hc p hring := by
    rw [← alignmentCentres_eq h] at hc
    obtain ⟨ij, hij, rfl⟩ := List.mem_map.1 hc
    exact symbol_alignment h ecl mask code hij hring
  versionWord h7 other := by
    refine List.map_congr_left fun k hk => ?_
    rw [← versionBits_eq h7 h.2, ← getBit_eq_testBit]
    refine symbol_version h ecl mask code h7 (List.mem_range.1 hk) ?_
    cases other with
    | false => exact .inl rfl
    | true => exact .inr rfl
  formatWord other := formatRead_symbol h ecl hmask code other
  dark := by
    refine writeAll_of_mem (mem_formatWrites.2 (.inr (.inr rfl))) fun w hw heq => ?_
    have hs := (isVersion_side h).1
    rcases mem_formatWrites.1 hw with ⟨i, hi, rfl⟩ | ⟨i, hi, rfl⟩ | rfl
    · exact absurd heq (formatPlaces_inj hs hi hi).2.2.2.1
    · exact absurd heq (formatPlaces_inj hs hi hi).2.2.2.2
    · rfl

end

/-! ## The encoder -/

theorem Made.hasLandmarks {o : Order} (ho : o.Valid) {message : Nat → List Bool} {q : Bytes}
    {version mask : Nat} {ecl : Ecc} (h : Made o message q version ecl mask) :
    Qr.HasLandmarks version ecl.standard mask (pixelAt (version * 4 + 17) q) := by
  obtain ⟨-, f, ⟨data, code, -, -, rfl⟩, -, hpixels⟩ := h.symbol
  rw [hpixels]
  exact symbol_hasLandmarks (h.isVersion ho) ecl mask code h.mask_le

section

variable {o : Order} (ho : o.Valid) {segs : List Segment} (hsegs : ∀ seg ∈ segs, seg.Valid)
  {temp q : Bytes} (htemp : bufferLenForVersion o.maxVersion ≤ temp.size)
  (hq : bufferLenForVersion o.maxVersion ≤ q.size)

include ho hsegs htemp hq

/-- Every symbol that the encoder makes has the landmarks of its version, with its level and its
mask in the format. -/
theorem encodeSegmentsAdvanced_landmarks :
    Gives (encodeSegmentsAdvanced segs o.ecl o.minVersion o.maxVersion o.mask o.boostEcl temp q)
      fun r => r.ok = true → ∃ version ecl mask,
        Made o (fun v => messageBits v segs) r.qrcode version ecl mask ∧
          Qr.HasLandmarks version ecl.standard mask (pixelAt (version * 4 + 17) r.qrcode) := by
  refine (encodeSegmentsAdvanced_gives ho hsegs htemp hq).mono ?_
  rintro r ⟨-, hr⟩ hok
  obtain ⟨version, ecl, mask, hmade, -⟩ := hr.made hok
  exact ⟨version, ecl, mask, hmade, hmade.hasLandmarks ho⟩

/-- From a picture of a symbol its level and its mask are read, by either copy of the format, and
so is its version, when no more than three modules of the copy are wrong. Nothing else is read
there. -/
theorem encodeSegmentsAdvanced_readable :
    Gives (encodeSegmentsAdvanced segs o.ecl o.minVersion o.maxVersion o.mask o.boostEcl temp q)
      fun r => r.ok = true → ∃ version ecl mask,
        Made o (fun v => messageBits v segs) r.qrcode version ecl mask ∧
        ∀ (f : Nat × Nat → Bool) (other : Bool),
          (distance (Qr.formatRead version other (pixelAt (version * 4 + 17) r.qrcode))
              (Qr.formatRead version other f) ≤ 3 →
            ∀ level, ∀ m ≤ 7, distance (Qr.formatBits level m) (Qr.formatRead version other f) ≤ 3 ↔
              level = ecl.standard ∧ m = mask) ∧
          (7 ≤ version →
            distance (Qr.versionRead version other (pixelAt (version * 4 + 17) r.qrcode))
              (Qr.versionRead version other f) ≤ 3 →
            ∀ v, 7 ≤ v → v ≤ 40 →
              (distance (Qr.versionBits v) (Qr.versionRead version other f) ≤ 3 ↔
                v = version)) := by
  refine (encodeSegmentsAdvanced_gives ho hsegs htemp hq).mono ?_
  rintro r ⟨-, hr⟩ hok
  obtain ⟨version, ecl, mask, hmade, -⟩ := hr.made hok
  have hmarks := hmade.hasLandmarks ho
  refine ⟨version, ecl, mask, hmade, fun f other => ⟨fun hnear level m hm => ?_,
    fun h7 hnear v hv7 hv40 => ?_⟩⟩
  · exact hmarks.format_read hmade.mask_le hnear hm
  · exact hmarks.version_read h7 (hmade.isVersion ho).2 hnear hv7 hv40

end

/-- The symbol of `thor` has its landmarks, those of a version among them. -/
theorem encodeSegmentsAdvanced_landmarks_thor :
    ∃ r version ecl mask,
      wideOrder.run [thorSegment] (clearArray versionMax) (clearArray versionMax) = some r ∧
        7 ≤ version ∧
        Made wideOrder (fun v => messageBits v [thorSegment]) r.qrcode version ecl mask ∧
          Qr.HasLandmarks version ecl.standard mask (pixelAt (version * 4 + 17) r.qrcode) := by
  obtain ⟨r, hr, hok⟩ := thorSegment_gives .auto trivial
  obtain ⟨version, ecl, mask, hmade, hmarks⟩ :=
    (encodeSegmentsAdvanced_landmarks wideOrder_valid thorSegment_valid (clearArray_room _)
      (clearArray_room _)).of_eq hr hok
  exact ⟨r, version, ecl, mask, hr, hmade.min_le, hmade, hmarks⟩

/-- Level, mask and version of the symbol of `thor`, read from the symbol itself. -/
theorem encodeSegmentsAdvanced_readable_thor :
    ∃ r version ecl mask,
      wideOrder.run [thorSegment] (clearArray versionMax) (clearArray versionMax) = some r ∧
      Made wideOrder (fun v => messageBits v [thorSegment]) r.qrcode version ecl mask ∧
      ∀ other, (∀ level, ∀ m ≤ 7, distance (Qr.formatBits level m)
          (Qr.formatRead version other (pixelAt (version * 4 + 17) r.qrcode)) ≤ 3 ↔
            level = ecl.standard ∧ m = mask) ∧
        ∀ v, 7 ≤ v → v ≤ 40 → (distance (Qr.versionBits v)
          (Qr.versionRead version other (pixelAt (version * 4 + 17) r.qrcode)) ≤ 3 ↔
            v = version) := by
  obtain ⟨r, hr, hok⟩ := thorSegment_gives .auto trivial
  obtain ⟨version, ecl, mask, hmade, hread⟩ :=
    (encodeSegmentsAdvanced_readable wideOrder_valid thorSegment_valid (clearArray_room _)
      (clearArray_room _)).of_eq hr hok
  have hself : ∀ l : List Bool, distance l l ≤ 3 := by
    intro l
    rw [distance_self]
    exact Nat.zero_le _
  refine ⟨r, version, ecl, mask, hr, hmade, fun other => ?_⟩
  obtain ⟨hformat, hversion⟩ := hread (pixelAt (version * 4 + 17) r.qrcode) other
  exact ⟨hformat (hself _), hversion hmade.min_le (hself _)⟩

end Thor
