import Thor.Ui.RoundTrip

/-!
# The mode and the version of a text (ui/qr_generator.c)

`encodeText` makes one segment of its text, in the first of three modes that has all of the
characters, and then tries the versions from below.

- `piecesFit_iff`: for one piece with characters, the width of the count decides nothing.
- `pieceOf_shortest`: no other piece with the same text makes a shorter message.
- `piecesFit_mono`: one piece fits every version above one that it fits.
- `encodeText_iff`: a text has a symbol exactly when it fits the largest version of the range.
- `encodeText_least`: no single segment with the text has a smaller one.
-/

namespace Thor

open CLib

/-! ## The length of a message -/

theorem length_pieceMessage (version : Nat) (p : Piece) :
    (piecesMessage version [p]).length = 4 + charCountBits p.mode version + p.bits.length := by
  rw [piecesMessage, List.flatMap_singleton, Piece.message, List.length_append,
    List.length_append, length_toBits, length_toBits]

theorem length_pieceBits {p : Piece} (h : p.mode ≠ .eci) :
    p.bits.length = p.mode.bitCount p.numChars := by
  cases p with
  | digits text => exact (bitCount_numeric text).symm
  | chars text => exact (bitCount_alphanumeric text).symm
  | bytes data => rw [Piece.bits, length_bitsOf, Piece.mode, Piece.numChars, Mode.bitCount,
      Nat.mul_comm]
  | channel v => exact absurd rfl h

theorem bitCount_mono (mode : Mode) {m n : Nat} (h : m ≤ n) : mode.bitCount m ≤ mode.bitCount n := by
  cases mode
  all_goals
    simp only [Mode.bitCount]
    omega

/-- As many characters as do not fit the count do not fit the symbol either. -/
theorem dataCodewords_lt_count {version : Nat} (hv : IsVersion version) {mode : Mode}
    (h : mode ≠ .eci) :
    8 * dataCodewords version .low < mode.bitCount (2 ^ charCountBits mode version) := by
  have hall : ∀ v ≤ 40, 1 ≤ v →
      8 * dataCodewords v .low < mode.bitCount (2 ^ charCountBits mode v) := by
    cases mode with
    | eci => exact absurd rfl h
    | numeric | alphanumeric | byte | kanji => decide +kernel
  exact hall version hv.2 hv.1

/-- For a piece with characters the count is never what does not fit. -/
theorem piecesFit_iff {version : Nat} (hv : IsVersion version) {p : Piece} (h : p.mode ≠ .eci)
    (ecl : Ecc) : PiecesFit [p] ecl version ↔
      (piecesMessage version [p]).length ≤ 8 * dataCodewords version ecl := by
  refine and_iff_right_of_imp fun hfit p' hp' => ?_
  rw [List.mem_singleton.1 hp']
  by_contra hlarge
  have hcount := bitCount_mono p.mode (Nat.le_of_not_lt hlarge)
  have hlow := dataCodewords_anti hv (show Ecc.level .low ≤ ecl.level from Nat.zero_le _)
  have hsmall := dataCodewords_lt_count hv h
  rw [length_pieceMessage, length_pieceBits h] at hfit
  omega

/-! ## The mode -/

/-- The pieces with a text. -/
theorem piece_cases {p : Piece} (hp : p.Valid) {text : List Byte} (htext : textOf [p] = text)
    (hne : text ≠ []) : p = .digits text ∧ isNumeric text = true ∨
      p = .chars text ∧ isAlphanumeric text = true ∨ p = .bytes text := by
  rw [textOf, List.map_singleton, Qr.textOf, List.flatMap_singleton] at htext
  cases p with
  | digits t =>
    obtain rfl : t = text := htext
    exact .inl ⟨rfl, hp⟩
  | chars t =>
    obtain rfl : t = text := htext
    exact .inr (.inl ⟨rfl, hp⟩)
  | bytes t =>
    obtain rfl : t = text := htext
    exact .inr (.inr rfl)
  | channel v => exact absurd htext.symm hne

/-- A later mode has a narrower count, and more than that wider characters. -/
theorem bitCount_modes {version : Nat} (hv : IsVersion version) {n : Nat} (hn : 0 < n) :
    charCountBits .numeric version + Mode.numeric.bitCount n ≤
        charCountBits .alphanumeric version + Mode.alphanumeric.bitCount n ∧
      charCountBits .alphanumeric version + Mode.alphanumeric.bitCount n ≤
        charCountBits .byte version + Mode.byte.bitCount n := by
  have hall : ∀ v ≤ 40, charCountBits .numeric v ≤ charCountBits .alphanumeric v + 1 ∧
      charCountBits .alphanumeric v ≤ charCountBits .byte v + 1 := by decide
  obtain ⟨hnumber, hletter⟩ := hall version hv.2
  simp only [Mode.bitCount]
  omega

/-- No piece with the text makes a shorter message than the one that `encodeText` makes. -/
theorem pieceOf_shortest {version : Nat} (hv : IsVersion version) {p : Piece} (hp : p.Valid)
    {text : List Byte} (htext : textOf [p] = text) :
    (piecesMessage version (pieceOf text)).length ≤ (piecesMessage version [p]).length := by
  have hlen : ∀ p : Piece, p.mode ≠ .eci → (piecesMessage version [p]).length =
      4 + (charCountBits p.mode version + p.mode.bitCount p.numChars) := by
    intro p h
    rw [length_pieceMessage, length_pieceBits h, Nat.add_assoc]
  have hdigits := hlen (.digits text) nofun
  have hchars := hlen (.chars text) nofun
  have hbytes := hlen (.bytes text) nofun
  rw [pieceOf]
  split_ifs with hempty hnumeric halpha
  · exact Nat.zero_le _
  all_goals
    have hpos : 0 < text.length := Nat.pos_of_ne_zero hempty
    obtain ⟨hnumber, hletter⟩ := bitCount_modes hv hpos
    rcases piece_cases hp htext (List.ne_nil_of_length_pos hpos) with
      ⟨rfl, hall⟩ | ⟨rfl, hall⟩ | rfl
  -- digits
  · exact Nat.le_refl _
  · rw [hdigits, hchars]
    exact Nat.add_le_add_left hnumber 4
  · rw [hdigits, hbytes]
    exact Nat.add_le_add_left (hnumber.trans hletter) 4
  -- characters of the alphanumeric set, and not only digits
  · exact absurd hall hnumeric
  · exact Nat.le_refl _
  · rw [hchars, hbytes]
    exact Nat.add_le_add_left hletter 4
  -- other bytes
  · exact absurd hall hnumeric
  · exact absurd hall halpha
  · exact Nat.le_refl _

/-- What fits as any piece fits as the one that `encodeText` makes. -/
theorem pieceOf_fits_of {version : Nat} (hv : IsVersion version) {ecl : Ecc} {p : Piece}
    (hp : p.Valid) {text : List Byte} (htext : textOf [p] = text)
    (h : PiecesFit [p] ecl version) : PiecesFit (pieceOf text) ecl version := by
  have hlen := (pieceOf_shortest hv hp htext).trans h.2
  rw [pieceOf] at hlen ⊢
  split_ifs at hlen ⊢
  · exact ⟨by simp, Nat.zero_le _⟩
  all_goals exact (piecesFit_iff hv (by simp [Piece.mode]) ecl).2 hlen

/-! ## The version -/

theorem charCountBits_succ (mode : Mode) {version : Nat} (h : version < versionMax) :
    charCountBits mode version ≤ charCountBits mode (version + 1) ∧
      charCountBits mode (version + 1) ≤ charCountBits mode version + 8 := by
  have hall : ∀ v < 40, charCountBits mode v ≤ charCountBits mode (v + 1) ∧
      charCountBits mode (v + 1) ≤ charCountBits mode v + 8 := by
    cases mode <;> decide
  exact hall version h

theorem dataCodewords_succ (ecl : Ecc) {version : Nat} (h1 : versionMin ≤ version)
    (h : version < versionMax) : dataCodewords version ecl < dataCodewords (version + 1) ecl := by
  have hall : ∀ v < 40, 1 ≤ v → dataCodewords v ecl < dataCodewords (v + 1) ecl := by
    cases ecl <;> decide +kernel
  exact hall version h h1

/-- The next version has room for what a wider count takes. -/
theorem piecesFit_succ {version : Nat} (h1 : versionMin ≤ version) (hmax : version < versionMax)
    {p : Piece} {ecl : Ecc} (h : PiecesFit [p] ecl version) : PiecesFit [p] ecl (version + 1) := by
  obtain ⟨hcount, hbits⟩ := h
  obtain ⟨hwider, hby⟩ := charCountBits_succ p.mode hmax
  have hroom := dataCodewords_succ ecl h1 hmax
  refine ⟨fun p' hp' => ?_, ?_⟩
  · have hold := hcount p' hp'
    rw [List.mem_singleton.1 hp'] at hold ⊢
    exact hold.trans_le (Nat.pow_le_pow_right (by decide) hwider)
  · rw [length_pieceMessage] at hbits ⊢
    omega

theorem piecesFit_mono {p : Piece} {ecl : Ecc} {v w : Nat} (h1 : versionMin ≤ v) (hvw : v ≤ w)
    (hmax : w ≤ versionMax) (h : PiecesFit [p] ecl v) : PiecesFit [p] ecl w := by
  induction hvw with
  | refl => exact h
  | step hle ih => exact piecesFit_succ (h1.trans hle) hmax (ih (Nat.le_of_succ_le hmax))

theorem pieceOf_fits_mono {text : List Byte} {ecl : Ecc} {v w : Nat} (h1 : versionMin ≤ v)
    (hvw : v ≤ w) (hmax : w ≤ versionMax) (h : PiecesFit (pieceOf text) ecl v) :
    PiecesFit (pieceOf text) ecl w := by
  rw [pieceOf] at h ⊢
  split_ifs at h ⊢
  · exact ⟨by simp, Nat.zero_le _⟩
  all_goals exact piecesFit_mono h1 hvw hmax h

/-! ## The encoder -/

section

variable {o : Order} {temp q : Bytes}

/-- A text has a symbol exactly when it fits the largest version that is asked for. -/
theorem encodeText_iff (ho : o.Valid) (text : List Byte)
    (htemp : bufferLenForVersion o.maxVersion ≤ temp.size)
    (hq : bufferLenForVersion o.maxVersion ≤ q.size) :
    Gives (encodeText text temp q o.ecl o.minVersion o.maxVersion o.mask o.boostEcl) fun r =>
      r.ok = true ↔ PiecesFit (pieceOf text) o.ecl o.maxVersion := by
  refine (encodeText_gives ho text htemp hq).mono ?_
  rintro r ⟨-, hr⟩
  rw [hr.ok_iff]
  constructor
  · rintro ⟨v, hmin, hmax, hfit⟩
    exact pieceOf_fits_mono (ho.min_le.trans hmin) hmax ho.max_le hfit
  · exact fun hfit => ⟨o.maxVersion, ho.le_max, Nat.le_refl _, hfit⟩

/-- The text `thor` fits, and two thousand and four hundred zero bytes do not. -/
theorem encodeText_iff_thor :
    (∃ r, encodeText thorText (clearArray versionMax) (clearArray versionMax) .medium 7 versionMax
        .auto true = some r ∧ r.ok = true) ∧
      ∃ r, encodeText (List.replicate 2400 0) (clearArray versionMax) (clearArray versionMax)
        .medium 7 versionMax .auto true = some r ∧ r.ok = false := by
  have hroom := clearArray_room versionMax
  constructor
  · obtain ⟨r, hr, hok⟩ := encodeText_iff wideOrder_valid thorText hroom hroom
    exact ⟨r, hr, hok.2 ⟨by decide, by decide⟩⟩
  · obtain ⟨r, hr, hok⟩ := encodeText_iff wideOrder_valid (List.replicate 2400 0) hroom hroom
    have hlarge : ¬ PiecesFit (pieceOf (List.replicate 2400 0)) .medium versionMax := by
      intro hfit
      have hlen := hfit.2
      rw [pieceOf, if_neg (by rw [List.length_replicate]; decide), if_neg (by decide +kernel),
        if_neg (by decide +kernel), length_pieceMessage, Piece.bits, length_bitsOf,
        List.length_replicate] at hlen
      exact absurd hlen (by decide)
    exact ⟨r, hr, Bool.eq_false_iff.2 (hok.not.2 hlarge)⟩

/-- When any single segment with the text fits a version of the range, the text has a symbol,
and none of a larger version than that. -/
theorem encodeText_least (ho : o.Valid) (text : List Byte)
    (htemp : bufferLenForVersion o.maxVersion ≤ temp.size)
    (hq : bufferLenForVersion o.maxVersion ≤ q.size) :
    Gives (encodeText text temp q o.ecl o.minVersion o.maxVersion o.mask o.boostEcl) fun r =>
      ∀ p : Piece, p.Valid → textOf [p] = text → ∀ w, o.minVersion ≤ w → w ≤ o.maxVersion →
        PiecesFit [p] o.ecl w → r.ok = true ∧ ∃ v ≤ w, IsSymbol (v * 4 + 17) r.qrcode := by
  refine (encodeText_gives ho text htemp hq).mono ?_
  rintro r ⟨-, hr⟩ p hp htext w hmin hmax hfit
  have hw : IsVersion w := ⟨ho.min_le.trans hmin, hmax.trans ho.max_le⟩
  have hown := pieceOf_fits_of hw hp htext hfit
  cases hr with
  | success version mask e ok _ _ _ least _ _ symbol =>
    exact ⟨ok, version, Nat.le_of_not_lt fun hlt => least w hmin hlt hown, symbol.1⟩
  | failure _ none => exact absurd hown (none w hmin hmax)

/-- A hundred and fifty digits would fit version 8 as bytes. -/
theorem encodeText_least_bytes :
    ∃ r, encodeText (List.replicate 150 0x31#8) (clearArray versionMax) (clearArray versionMax)
        .medium 7 versionMax .auto true = some r ∧
      r.ok = true ∧ ∃ v ≤ 8, IsSymbol (v * 4 + 17) r.qrcode := by
  obtain ⟨r, hr, hleast⟩ := encodeText_least wideOrder_valid (List.replicate 150 0x31#8)
    (clearArray_room versionMax) (clearArray_room versionMax)
  have hfits : PiecesFit [.bytes (List.replicate 150 0x31#8)] .medium 8 :=
    ⟨by decide +kernel, by decide +kernel⟩
  obtain ⟨hok, v, hv, hsymbol⟩ := hleast (.bytes (List.replicate 150 0x31#8)) trivial
    (textOf_bytes _) 8 (show 7 ≤ 8 by omega) (show 8 ≤ 40 by omega) hfits
  exact ⟨r, hr, hok, v, hv, hsymbol⟩

end

end Thor
