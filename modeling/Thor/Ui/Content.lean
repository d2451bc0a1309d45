import Thor.Ui.Standard

/-!
# The content of a symbol (ui/qr_generator.c)

The encoder has no reader beside it in the source. What it writes is read here by the standard:
the pieces that were encoded come back, whatever the padding behind them.

- `Piece.standard`: what a piece is for the standard.
- `readPart_bits`: one piece. `readParts_paddedBits`: the whole content.
-/

namespace Thor

open CLib

/-- A piece in the terms of the standard. -/
def Piece.standard : Piece → Qr.Part
  | digits text => .numeric text
  | chars text => .alphanumeric text
  | bytes data => .byte data
  | channel assignVal => .eci assignVal

/-- The text that the standard has for some pieces. -/
def textOf (pieces : List Piece) : List Byte := Qr.textOf (pieces.map Piece.standard)

theorem textOf_bytes (data : List Byte) : textOf [.bytes data] = data := by
  simp [textOf, Qr.textOf, Piece.standard]

theorem textOf_pieceOf (text : List Byte) : textOf (pieceOf text) = text := by
  rw [pieceOf]
  split_ifs with hempty
  · rw [List.length_eq_zero_iff.1 hempty]
    rfl
  all_goals
    simp [textOf, Qr.textOf, Piece.standard]

/-- A text makes a piece that `encodeText` may make. -/
theorem pieceOf_valid (text : List Byte) : ∀ p ∈ pieceOf text, p.Valid := by
  intro p hp
  rw [pieceOf] at hp
  split_ifs at hp with hempty hnumeric halpha
  · simp at hp
  · rw [List.mem_singleton.1 hp]
    exact hnumeric
  · rw [List.mem_singleton.1 hp]
    exact halpha
  · rw [List.mem_singleton.1 hp]
    trivial

/-! ## One piece -/

theorem ofIndicator_mode (p : Piece) :
    Qr.Mode.ofIndicator p.mode.indicator = some p.standard.mode := by
  cases p <;> rfl

theorem countBits_eq {version : Nat} (h : IsVersion version) (p : Piece) :
    Qr.countBits p.standard.mode version = charCountBits p.mode version := by
  have hall : ∀ v ≤ 40, Qr.countBits .numeric v = charCountBits .numeric v ∧
      Qr.countBits .alphanumeric v = charCountBits .alphanumeric v ∧
      Qr.countBits .byte v = charCountBits .byte v ∧
        Qr.countBits .eci v = charCountBits .eci v := by
    decide
  obtain ⟨hdigits, hchars, hbytes, hchannel⟩ := hall version h.2
  cases p with
  | digits => exact hdigits
  | chars => exact hchars
  | bytes => exact hbytes
  | channel => exact hchannel

/-- The widths of the packed modes are those of the standard. -/
theorem width_eq {m : Nat} (hpos : 0 < m) :
    (m ≤ 3 → Qr.digitsWidth m = numericWidth m) ∧
      (m ≤ 2 → Qr.charsWidth m = alphanumericWidth m) := by
  constructor
  · intro hm
    interval_cases m <;> rfl
  · intro hm
    interval_cases m <;> rfl

theorem map_digitOf {text : List Byte} (h : isNumeric text = true) :
    (text.map digitOf).map Qr.digitOfValue = text := by
  rw [List.map_map]
  refine (List.map_congr_left fun c hc => ?_).trans (List.map_id text)
  have hdigit := List.all_eq_true.1 h c hc
  rw [isDigit, decide_eq_true_iff] at hdigit
  refine BitVec.eq_of_toNat_eq ?_
  simp only [Function.comp_apply, Qr.digitOfValue, digitOf, BitVec.toNat_ofNat, id_eq]
  omega

/-- The characters of the source have the values of the standard. -/
theorem charOfValue_eq {d : Nat} (hd : d < 45) :
    Qr.charOfValue d = alphanumericCharset.getD d 0 := by
  have hall : ∀ d < 45, Qr.charOfValue d = alphanumericCharset.getD d 0 := by decide
  exact hall d hd

theorem map_charOf {text : List Byte} (h : isAlphanumeric text = true) :
    (text.map charOf).map Qr.charOfValue = text := by
  rw [List.map_map]
  refine (List.map_congr_left fun c hc => ?_).trans (List.map_id text)
  obtain ⟨-, hlt, hchar⟩ := charsetIndex_eq (List.all_eq_true.1 h c hc)
  exact (charOfValue_eq hlt).trans hchar

/-- The designator of a channel comes back. -/
theorem readAssignment_eciBits {v : Nat} (hv : v < 1000000) (rest : List Bool) :
    Qr.readAssignment (eciBits v ++ rest) = some (v, rest) := by
  rw [eciBits]
  by_cases h1 : v < 2 ^ 7
  · have htop : v.testBit 7 = false := Nat.testBit_lt_two_pow h1
    have htake : (toBits 8 v ++ rest).take 1 = [false] := by
      rw [toBits_succ, htop]
      rfl
    rw [if_pos h1, Qr.readAssignment, if_pos htake, List.take_left' (length_toBits 8 v),
      List.drop_left' (length_toBits 8 v), ofBits_toBits_of_lt (by omega)]
  rw [if_neg h1]
  by_cases h2 : v < 2 ^ 14
  · rw [if_pos h2, List.append_assoc]
    have hbits : toBits 2 2 = [true, false] := by decide
    rw [hbits, Qr.readAssignment]
    show (if [true] = [false] then _ else if [true, false] = [true, false] then
      some (ofBits ((toBits 14 v ++ rest).take 14), (toBits 14 v ++ rest).drop 14) else _) = _
    rw [if_neg (by decide), if_pos rfl, List.take_left' (length_toBits 14 v),
      List.drop_left' (length_toBits 14 v), ofBits_toBits_of_lt h2]
  rw [if_neg h2]
  have hhigh : v >>> 10 < 2 ^ 11 := by
    rw [Nat.shiftRight_eq_div_pow]
    omega
  have hlow : v &&& 0x3FF < 2 ^ 10 := by
    rw [Nat.and_two_pow_sub_one_eq_mod v 10]
    exact Nat.mod_lt _ (by decide)
  have hlen : (toBits 11 (v >>> 10) ++ toBits 10 (v &&& 0x3FF)).length = 21 := by simp
  have hval : ofBits (toBits 11 (v >>> 10) ++ toBits 10 (v &&& 0x3FF)) = v := by
    rw [ofBits_append, ofBits_toBits_of_lt hhigh, ofBits_toBits_of_lt hlow, length_toBits,
      Nat.shiftRight_eq_div_pow, Nat.and_two_pow_sub_one_eq_mod v 10]
    omega
  have hbits : toBits 3 6 = [true, true, false] := by decide
  rw [hbits, List.append_assoc, List.append_assoc, ← List.append_assoc (toBits 11 _),
    Qr.readAssignment]
  show (if [true] = [false] then _ else if [true, true] = [true, false] then _ else
    if [true, true, false] = [true, true, false] then
      some (ofBits ((toBits 11 (v >>> 10) ++ toBits 10 (v &&& 0x3FF) ++ rest).take 21),
        (toBits 11 (v >>> 10) ++ toBits 10 (v &&& 0x3FF) ++ rest).drop 21) else _) = _
  rw [if_neg (by decide), if_neg (by decide), if_pos rfl, List.take_left' hlen,
    List.drop_left' hlen, hval]

/-- A piece is read back, and the reader stops behind it. -/
theorem readPart_bits {p : Piece} (h : p.Valid) (rest : List Bool) :
    Qr.readPart p.standard.mode p.numChars (p.bits ++ rest) = some (p.standard, rest) := by
  cases p with
  | digits text =>
    have hdigit : ∀ d ∈ text.map digitOf, d < 10 := by
      intro d hd
      obtain ⟨c, hc, rfl⟩ := List.mem_map.1 hd
      exact (digitValue_eq (List.all_eq_true.1 h c hc)).2
    have hunpack := unpack_pack (groupSizes 3 text.length) hdigit
      (by rw [total_groupSizes, List.length_map])
      (fun m hm => (wideEnough_numeric m (le_of_mem_groupSizes (by decide) hm)).2) rest
    rw [Piece.standard, Qr.Part.mode, Piece.numChars, Piece.bits, numericBits, Qr.readPart,
      unpack_congr fun m hm => (width_eq (pos_of_mem_groupSizes (by decide) hm)).1
        (le_of_mem_groupSizes (by decide) hm), hunpack, some_bind]
    show some (Qr.Part.numeric ((text.map digitOf).map _), rest) = _
    rw [map_digitOf h]
  | chars text =>
    have hchar : ∀ d ∈ text.map charOf, d < 45 := by
      intro d hd
      obtain ⟨c, hc, rfl⟩ := List.mem_map.1 hd
      exact (charsetIndex_eq (List.all_eq_true.1 h c hc)).2.1
    have hunpack := unpack_pack (groupSizes 2 text.length) hchar
      (by rw [total_groupSizes, List.length_map])
      (fun m hm => (wideEnough_alphanumeric m (le_of_mem_groupSizes (by decide) hm)).2) rest
    rw [Piece.standard, Qr.Part.mode, Piece.numChars, Piece.bits, alphanumericBits, Qr.readPart,
      unpack_congr fun m hm => (width_eq (pos_of_mem_groupSizes (by decide) hm)).2
        (le_of_mem_groupSizes (by decide) hm), hunpack, some_bind]
    show some (Qr.Part.alphanumeric ((text.map charOf).map _), rest) = _
    rw [map_charOf h]
  | bytes data =>
    rw [Piece.standard, Qr.Part.mode, Piece.numChars, Piece.bits, Qr.readPart,
      if_neg (by rw [List.length_append, length_bitsOf]; omega), Qr.readBytes_bitsOf,
      List.drop_left' (length_bitsOf data)]
  | channel v =>
    rw [Piece.standard, Qr.Part.mode, Piece.numChars, Piece.bits, Qr.readPart,
      readAssignment_eciBits h, some_bind]
    rfl

/-! ## The whole content -/

/-- The pieces are read one after the other, and then the tail. -/
theorem readParts_append {version : Nat} (hv : IsVersion version) {pieces : List Piece}
    (hvalid : ∀ p ∈ pieces, p.Valid)
    (hcounts : ∀ p ∈ pieces, p.numChars < 2 ^ charCountBits p.mode version) {tail : List Bool}
    (htail : tail.length < 4 ∨ ofBits (tail.take 4) = 0) (fuel : Nat)
    (hfuel : pieces.length < fuel) :
    Qr.readParts version fuel (piecesMessage version pieces ++ tail) =
      some (pieces.map Piece.standard) := by
  induction pieces generalizing fuel with
  | nil =>
    obtain ⟨fuel, rfl⟩ : ∃ n, fuel = n + 1 := ⟨fuel - 1, by simp at hfuel; omega⟩
    rw [piecesMessage, List.flatMap_nil, List.nil_append, Qr.readParts_end htail]
    rfl
  | cons p pieces ih =>
    obtain ⟨fuel, rfl⟩ : ∃ n, fuel = n + 1 := ⟨fuel - 1, by omega⟩
    have hrest := ih (fun p' hp' => hvalid p' (List.mem_cons_of_mem p hp'))
      (fun p' hp' => hcounts p' (List.mem_cons_of_mem p hp')) fuel
      (by rw [List.length_cons] at hfuel; omega)
    have hcount := hcounts p (List.mem_cons_self ..)
    rw [← countBits_eq hv] at hcount
    have hhead := Qr.readParts_cons (ofIndicator_mode p) hcount
      (readPart_bits (hvalid p (List.mem_cons_self ..)) (piecesMessage version pieces ++ tail)) fuel
    rw [countBits_eq hv, hrest] at hhead
    rw [piecesMessage, List.flatMap_cons, ← piecesMessage, Piece.message]
    simp only [List.append_assoc]
    exact hhead

/-- Behind a message there are the four zeros of the terminator, or less than four bits. -/
theorem terminated {bytes n : Nat} (h : n ≤ bytes * 8) (rest : List Bool)
    (hrest : rest.length + (n + terminatorLength (bytes * 8) n) = bytes * 8) :
    (List.replicate (terminatorLength (bytes * 8) n) false ++ rest).length < 4 ∨
      ofBits ((List.replicate (terminatorLength (bytes * 8) n) false ++ rest).take 4) = 0 := by
  by_cases hfour : 4 ≤ terminatorLength (bytes * 8) n
  · right
    rw [List.take_append_of_le_length (by simpa using hfour), List.take_replicate,
      Nat.min_eq_left hfour]
    rfl
  · left
    rw [List.length_append, List.length_replicate]
    have hspec := terminatorLength_spec h
    rw [terminatorLength] at *
    omega

theorem length_pieces_le (version : Nat) (pieces : List Piece) :
    pieces.length ≤ (piecesMessage version pieces).length := by
  induction pieces with
  | nil => exact Nat.zero_le _
  | cons p pieces ih =>
    rw [piecesMessage, List.flatMap_cons, List.length_append, ← piecesMessage, List.length_cons,
      Piece.message, List.length_append, List.length_append, length_toBits]
    omega

/-- The content of a message ends at its terminator, or where there is no room for one. -/
theorem readParts_paddedBits {version bytes : Nat} (hv : IsVersion version) {pieces : List Piece}
    (hvalid : ∀ p ∈ pieces, p.Valid)
    (hcounts : ∀ p ∈ pieces, p.numChars < 2 ^ charCountBits p.mode version)
    (hroom : (piecesMessage version pieces).length ≤ bytes * 8) (fuel : Nat)
    (hfuel : bytes * 8 < fuel) :
    Qr.readParts version fuel (paddedBits bytes (piecesMessage version pieces)) =
      some (pieces.map Piece.standard) := by
  have hle := length_pieces_le version pieces
  have hlen := length_paddedBits hroom
  rw [paddedBits, List.append_assoc] at hlen ⊢
  refine readParts_append hv hvalid hcounts (terminated hroom _ ?_) fuel (by omega)
  rw [List.length_append, List.length_append, List.length_replicate] at hlen
  omega

end Thor
