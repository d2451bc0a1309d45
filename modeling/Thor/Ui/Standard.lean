import Thor.Qr.Reader
import Thor.Ui.Outcome

/-!
# The tables of the encoder are those of the standard (ui/qr_generator.c)

The source computes most of what the standard lists: the check bits of format and version, the
alignment patterns, the layout of the blocks, the order of the modules. The two are compared
here, one kind after the other, and so are the tables that the source lists as well.

- `maskInverts_eq`, `formatWord_eq`, `versionBits_eq`, `alignmentCentres_eq`.
- `isFunction_iff_reserved`, `zigzag_eq`, `dataPlaces_eq`: the modules for codewords.
- `layout_eq`, `received_eq`, `isCodeword_iff`: the blocks and their code.
-/

namespace Thor

open CLib

/-! ## Masks, format and version -/

/-- The level of the standard. -/
def Ecc.standard : Ecc → Qr.Level
  | low => .L
  | medium => .M
  | quartile => .Q
  | high => .H

theorem Ecc.standard_surjective (level : Qr.Level) : ∃ ecl : Ecc, ecl.standard = level := by
  cases level with
  | L => exact ⟨.low, rfl⟩
  | M => exact ⟨.medium, rfl⟩
  | Q => exact ⟨.quartile, rfl⟩
  | H => exact ⟨.high, rfl⟩

/-- The `switch` of `applyMask` has the conditions of the standard. -/
theorem maskInverts_eq {mask : Nat} (hmask : mask ≤ 7) (x y : Nat) :
    maskInverts mask x y = decide (Qr.maskCondition mask y x) := by
  rw [Bool.eq_iff_iff, decide_eq_true_iff]
  interval_cases mask
  all_goals
    simp only [maskInverts, Qr.maskCondition, beq_iff_eq, Nat.add_comm y, Nat.mul_comm y,
      Nat.add_comm (y / 2)]

theorem getBit_eq_testBit (x i : Nat) : getBit x i = x.testBit i := by
  rw [getBit, Nat.testBit, Nat.and_comm]

/-- The loop over the check bits of the format ends with the word of the standard. -/
theorem formatWord_eq (ecl : Ecc) {mask : Nat} (hmask : mask ≤ 7) :
    formatWord ecl mask = Qr.formatWords.getD (8 * ecl.standard.indicator + mask) 0 := by
  have hall : ∀ m ≤ 7,
      formatWord ecl m = Qr.formatWords.getD (8 * ecl.standard.indicator + m) 0 := by
    cases ecl <;> decide
  exact hall mask hmask

theorem versionBits_eq {version : Nat} (h7 : 7 ≤ version) (h40 : version ≤ 40) :
    versionBits version = Qr.versionWords.getD (version - 7) 0 := by
  have hall : ∀ v ≤ 40, 7 ≤ v → versionBits v = Qr.versionWords.getD (v - 7) 0 := by decide
  exact hall version h40 h7

theorem formatPlace_eq {s i : Nat} (hi : i < 15) :
    Qr.formatPlace s false i = formatPlace i ∧ Qr.formatPlace s true i = formatPlaceOther s i := by
  refine ⟨?_, rfl⟩
  have hall : ∀ i < 15, Qr.formatPlaces.getD i (0, 0) = formatPlace i := by decide
  exact hall i hi

/-- The formula for the positions gives those of the standard. -/
theorem alignmentCentres_eq {version : Nat} (h : IsVersion version) :
    (alignmentPairs version).map (alignmentCentre version) = Qr.alignmentCentres version := by
  have hall : ∀ v ≤ 40, 1 ≤ v →
      (alignmentPairs v).map (alignmentCentre v) = Qr.alignmentCentres v := by
    decide +kernel
  exact hall version h.2 h.1

/-! ## The modules for codewords -/

theorem isFunction_iff_reserved {version : Nat} (h : IsVersion version) {p : Nat × Nat}
    (hx : p.1 < version * 4 + 17) (hy : p.2 < version * 4 + 17) :
    IsFunction version p ↔ Qr.Reserved version p := by
  have hside := isVersion_side h
  -- the squares of the alignment patterns, and the rings around their centres
  have halign : (∃ ij ∈ alignmentPairs version,
      (alignmentRect (alignmentCentre version ij)).Has p) ↔
        ∃ c ∈ Qr.alignmentCentres version, Qr.ring c p ≤ 2 := by
    rw [← alignmentCentres_eq h]
    simp only [List.mem_map, exists_exists_and_eq_and]
    refine exists_congr fun ij => and_congr_right fun hij => ?_
    have hcentre := centre_bounds h hij
    simp only [alignmentRect, Rect.Has, Qr.ring_le_iff]
    omega
  have hfinder : (∃ c ∈ Qr.finderCentres (version * 4 + 17), Qr.ring c p ≤ 4) ↔
      (p.1 < 8 ∧ p.2 < 8) ∨ (version * 4 + 17 ≤ p.1 + 8 ∧ p.2 < 8) ∨
        (p.1 < 8 ∧ version * 4 + 17 ≤ p.2 + 8) := by
    simp only [Qr.finderCentres, List.mem_cons, List.not_mem_nil, or_false, exists_eq_or_imp,
      exists_eq_left, Qr.ring_le_iff]
    omega
  have hversion : (∃ r ∈ if version ≥ 7 then [⟨version * 4 + 17 - 11, 0, 3, 6⟩,
      ⟨0, version * 4 + 17 - 11, 6, 3⟩] else ([] : List Rect), r.Has p) ↔
        7 ≤ version ∧ ∃ other, ∃ k < 18, p = Qr.versionPlace (version * 4 + 17) other k := by
    rw [Qr.exists_versionPlace hside.1]
    split
    · simp only [List.mem_cons, List.not_mem_nil, or_false, exists_eq_or_imp, exists_eq_left,
        Rect.Has]
      omega
    · simp only [List.not_mem_nil, false_and, exists_false, false_iff]
      omega
  rw [Qr.Reserved, ← hversion, Qr.exists_formatPlace hside.1, hfinder, ← halign]
  simp only [IsFunction, functionRects, has_append, List.mem_cons, List.not_mem_nil, or_false,
    exists_eq_or_imp, exists_eq_left, List.mem_map, exists_exists_and_eq_and]
  constructor
  · rintro ((hfixed | hpattern) | hlarge)
    · simp only [Rect.Has] at hfixed
      simp only [Prod.ext_iff]
      omega
    · exact .inr (.inr (.inr (.inl hpattern)))
    · exact .inr (.inr (.inr (.inr (.inr (.inr hlarge)))))
  · rintro (h | h | h | hpattern | h | h | hlarge)
    · exact .inl (.inl (by simp only [Rect.Has]; omega))
    · exact .inl (.inl (by simp only [Rect.Has]; omega))
    · exact .inl (.inl (by simp only [Rect.Has]; omega))
    · exact .inl (.inr hpattern)
    · exact .inl (.inl (by simp only [Rect.Has]; omega))
    · exact .inl (.inl (by simp only [Rect.Has, h]; omega))
    · exact .inr hlarge

/-- The scan of `drawCodewords` goes through the modules in their order. -/
theorem zigzag_eq {s : Nat} (hs : s % 4 = 1) : zigzag s = Qr.placement s := by
  refine List.flatMap_congr fun k hk => ?_
  rw [List.mem_range] at hk
  -- the direction, which the source takes from the column
  have hup : (rightColumn s k + 1) &&& 2 = 0 ↔ k % 2 = 0 := by
    show (rightColumn s k + 1) &&& 2 ^ 1 = 0 ↔ _
    rw [Nat.and_two_pow, Nat.testBit_eq_decide_div_mod_eq, rightColumn]
    split <;> simp <;> omega
  have hright : rightColumn s k = if 2 * k + 7 < s then s - 1 - 2 * k else s - 2 - 2 * k := by
    rw [rightColumn]
    split_ifs <;> omega
  rw [← hright]
  refine List.flatMap_congr fun v _ => ?_
  show [zigzagPlace s _ v 0, zigzagPlace s _ v 1] = _
  simp only [zigzagPlace, hup, Nat.sub_zero]

theorem dataPlaces_eq {version : Nat} (h : IsVersion version) :
    dataPlaces version = Qr.dataModules version := by
  have hside := isVersion_side h
  rw [dataPlaces, whiteOf, Qr.dataModules, zigzag_eq (by omega)]
  refine List.filter_congr fun p hp => ?_
  rw [← zigzag_eq (by omega), mem_zigzag (by omega) (by omega)] at hp
  simp only [isFunction_iff_reserved h hp.1 hp.2.1, decide_not]

/-! ## The blocks -/

theorem layout_eq {version : Nat} (h : IsVersion version) (ecl : Ecc) :
    (Qr.layout ecl.standard version).count = numBlocks ecl version ∧
      (Qr.layout ecl.standard version).check = blockEccLen ecl version ∧
      (Qr.layout ecl.standard version).sizes = (dataBlocks ecl version).sizes ∧
      total (Qr.layout ecl.standard version).sizes = dataCodewords version ecl := by
  have hall : ∀ v ≤ 40, 1 ≤ v → (Qr.layout ecl.standard v).count = numBlocks ecl v ∧
      (Qr.layout ecl.standard v).check = blockEccLen ecl v ∧
      (Qr.layout ecl.standard v).sizes = (dataBlocks ecl v).sizes ∧
      total (Qr.layout ecl.standard v).sizes = dataCodewords v ecl := by
    cases ecl <;> decide +kernel
  exact hall version h.2 h.1

theorem sizes_getD {version : Nat} (h : IsVersion version) (ecl : Ecc) {i : Nat}
    (hi : i < numBlocks ecl version) :
    (Qr.layout ecl.standard version).sizes.getD i 0 = (dataBlocks ecl version).size i := by
  rw [(layout_eq h ecl).2.2.1, List.getD_eq_getElem?_getD, Blocks.getElem?_sizes hi,
    Option.getD_some]

/-- A block is received from where `addEccAndInterleave` puts it. -/
theorem received_eq {version : Nat} (h : IsVersion version) (ecl : Ecc) (codewords : Nat → Byte)
    {i : Nat} (hi : i < numBlocks ecl version) :
    (Qr.layout ecl.standard version).received codewords i =
      ((List.range ((dataBlocks ecl version).size i)).map fun j =>
        codewords ((dataBlocks ecl version).place i j)) ++
      (List.range (blockEccLen ecl version)).map fun j =>
        codewords (dataCodewords version ecl + (eccBlocks ecl version).place i j) := by
  obtain ⟨hcount, hcheck, hsizes, htotal⟩ := layout_eq h ecl
  have hecc : List.replicate (numBlocks ecl version) (blockEccLen ecl version) =
      (eccBlocks ecl version).sizes := by
    simp [Blocks.sizes, eccBlocks]
  rw [Qr.Layout.received, sizes_getD h ecl hi, htotal, hcount, hcheck, hsizes, hecc]
  congr 1
  · refine List.map_congr_left fun j hj => ?_
    rw [Blocks.sentBefore_sizes hi (List.mem_range.1 hj)]
  · refine List.map_congr_left fun j hj => ?_
    have hj : j < (eccBlocks ecl version).size i := by
      rw [size_eccBlocks hi]
      exact List.mem_range.1 hj
    rw [Blocks.sentBefore_sizes (B := eccBlocks ecl version) hi hj]

/-- The code of the standard is the one with the roots of `reedSolomonComputeDivisor`. -/
theorem isCodeword_iff {check : Nat} {word : List Byte} :
    Qr.IsCodeword check word ↔ ∀ j < check, horner (GF.two ^ j) (inField word) = 0 := by
  have hword : word.map Qr.residue = (inField word).map GF.residueHom := by
    rw [inField, List.map_map]
    rfl
  refine forall₂_congr fun j _ => ?_
  rw [hword, ← GF.residue_two, show GF.residue GF.two = GF.residueHom GF.two from rfl, ← map_pow,
    horner_map]
  exact map_eq_zero_iff GF.residueHom GF.residue_injective

end Thor
