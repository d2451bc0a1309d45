import Thor.Ui.Reader

/-!
# What goes in comes out (ui/qr_generator.c)

The entries of the encoder against the reader of the standard: a call that succeeds leaves a
symbol from which the text, the bytes or the segments of the call are read back, also when the
picture of it is damaged in as many modules as the level of error correction allows.
-/

namespace Thor

open CLib

/-- An array has the symbol that a call makes of these pieces. Any reader by the standard finds
in it these pieces and nothing else, also in a picture of it with as much damage as the error
correction of its level is for. -/
def ReadBack (o : Order) (pieces : List Piece) (qrcode : Bytes) : Prop :=
  ∃ version ecl mask, Made o (fun v => piecesMessage v pieces) qrcode version ecl mask ∧
    ∀ f, Qr.Near version ecl.standard mask (pixelAt (version * 4 + 17) qrcode) f →
      ∀ found, Qr.ReadsAs version f found ↔ found = pieces.map Piece.standard

theorem readBack_of_outcome {o : Order} (ho : o.Valid) {pieces : List Piece}
    (hvalid : ∀ p ∈ pieces, p.Valid) {r : Encoding}
    (h : Encoded o (PiecesFit pieces o.ecl) (fun v => piecesMessage v pieces) r)
    (hok : r.ok = true) : ReadBack o pieces r.qrcode := by
  obtain ⟨version, ecl, mask, hmade, hfit⟩ := h.made hok
  refine ⟨version, ecl, mask, hmade, fun f hnear found => ?_⟩
  exact readsAs_iff (hmade.isVersion ho) hmade.mask_le hvalid ⟨hfit.1, hmade.level.room⟩
    hmade.symbol hnear

section

variable {o : Order} {temp q : Bytes}

/-- Segments. -/
theorem encodeSegmentsAdvanced_readBack (ho : o.Valid) {segs : List Segment} {pieces : List Piece}
    (hhold : Hold segs pieces) (hvalid : ∀ p ∈ pieces, p.Valid) (hsegs : ∀ seg ∈ segs, seg.Valid)
    (htemp : bufferLenForVersion o.maxVersion ≤ temp.size)
    (hq : bufferLenForVersion o.maxVersion ≤ q.size) :
    Gives (encodeSegmentsAdvanced segs o.ecl o.minVersion o.maxVersion o.mask o.boostEcl temp q)
      fun r =>
        (r.ok = true ↔ ∃ v, o.minVersion ≤ v ∧ v ≤ o.maxVersion ∧ PiecesFit pieces o.ecl v) ∧
          (r.ok = true → ReadBack o pieces r.qrcode) := by
  refine (run_gives ho hhold hsegs htemp hq).mono ?_
  rintro r ⟨-, hr⟩
  exact ⟨hr.ok_iff, readBack_of_outcome ho hvalid hr⟩

/-! ## Segments from their makers -/

/-- The function of the source that makes a segment of a piece. -/
def Piece.make : Piece → Bytes → Option Segment
  | .digits text, buf => makeNumeric text buf
  | .chars text, buf => makeAlphanumeric text buf
  | .bytes data, buf => makeBytes data buf
  | .channel assignVal, buf => makeEci assignVal buf

/-- A piece that can be made in a buffer: it is not too long for a segment, and the buffer is as
large as `calcSegmentBufferSize` says. -/
def Piece.Roomy (p : Piece) (buf : Bytes) : Prop :=
  p.Valid ∧ ∃ n, calcSegmentBufferSize p.mode p.numChars = some n ∧ n ≠ sizeMax ∧ n ≤ buf.size

/-- A piece has as many bits as its mode counts for its characters, or less. -/
theorem Piece.length_bits_le (p : Piece) :
    p.bits.length ≤ p.mode.bitCount p.numChars ∧ p.numChars ≤ p.bits.length := by
  cases p with
  | digits text =>
    rw [Piece.bits, ← bitCount_numeric, Mode.bitCount, Piece.mode, Piece.numChars, Mode.bitCount]
    omega
  | chars text =>
    rw [Piece.bits, ← bitCount_alphanumeric, Mode.bitCount, Piece.mode, Piece.numChars,
      Mode.bitCount]
    omega
  | bytes data =>
    rw [Piece.bits, length_bitsOf, Piece.mode, Piece.numChars, Mode.bitCount]
    omega
  | channel v =>
    refine ⟨?_, Nat.zero_le _⟩
    simp only [Piece.bits, eciBits, Piece.mode, Mode.bitCount]
    split_ifs <;> simp

theorem Piece.make_gives {p : Piece} {buf : Bytes} (h : p.Roomy buf) :
    Gives (p.make buf) p.Fits := by
  obtain ⟨hvalid, n, hn, hmax, hroom⟩ := h
  obtain ⟨hbits, hchars⟩ := p.length_bits_le
  have heci : p.mode = .eci → p.numChars = 0 := by
    cases p with
    | channel => exact fun _ => rfl
    | digits | chars | bytes => exact nofun
  rw [calcSegmentBufferSize_eq heci, Option.some.injEq] at hn
  have hsmall : p.mode.bitCount p.numChars ≤ int16Max := by
    by_contra hlarge
    rw [if_pos (by omega)] at hn
    exact hmax hn.symm
  rw [if_neg (by omega)] at hn
  -- what the makers promise is that the segment is the piece, in the buffer
  suffices hmake : Gives (p.make buf) fun seg =>
      seg.Is p.mode p.numChars p.bits ∧ seg.data.size = buf.size by
    refine hmake.mono ?_
    rintro seg ⟨his, hsize⟩
    exact ⟨his, hchars, by omega, by omega⟩
  cases p with
  | digits text => exact makeNumeric_gives hvalid hsmall (hn ▸ hroom)
  | chars text => exact makeAlphanumeric_gives hvalid hsmall (hn ▸ hroom)
  | bytes data =>
    simp only [Piece.mode, Piece.numChars, Mode.bitCount] at hsmall hn
    exact makeBytes_gives hsmall (by omega)
  | channel v =>
    simp only [Piece.mode, Mode.bitCount] at hn
    exact makeEci_gives hvalid (by omega)

/-- Every piece is made in a buffer of its own. -/
theorem mapM_make_gives {parts : List (Piece × Bytes)} (h : ∀ x ∈ parts, x.1.Roomy x.2) :
    Gives (parts.mapM fun x => x.1.make x.2) fun segs =>
      Hold segs (parts.map Prod.fst) ∧ ∀ seg ∈ segs, seg.Valid := by
  induction parts with
  | nil => exact gives_some ⟨.nil, by simp⟩
  | cons x parts ih =>
    rw [List.mapM_cons]
    refine (Piece.make_gives (h x (List.mem_cons_self ..))).bind fun seg hseg => ?_
    refine (ih fun y hy => h y (List.mem_cons_of_mem x hy)).bind ?_
    rintro segs ⟨hhold, hvalid⟩
    exact gives_some ⟨.cons hseg.holds hhold, List.forall_mem_cons.2 ⟨hseg.valid, hvalid⟩⟩

/-- Segments from the makers, through `encodeSegments`. -/
theorem encodeSegments_readBack (ecl : Ecc) {parts : List (Piece × Bytes)}
    (h : ∀ x ∈ parts, x.1.Roomy x.2) {temp q : Bytes}
    (htemp : bufferLenForVersion versionMax ≤ temp.size)
    (hq : bufferLenForVersion versionMax ≤ q.size) :
    Gives (parts.mapM fun x => x.1.make x.2) fun segs =>
      Gives (encodeSegments segs ecl temp q) fun r =>
        (r.ok = true ↔ ∃ v, IsVersion v ∧ PiecesFit (parts.map Prod.fst) ecl v) ∧
          (r.ok = true →
            ReadBack ⟨ecl, versionMin, versionMax, .auto, true⟩ (parts.map Prod.fst) r.qrcode) := by
  refine (mapM_make_gives h).mono ?_
  rintro segs ⟨hhold, hsegs⟩
  have ho : Order.Valid ⟨ecl, versionMin, versionMax, .auto, true⟩ :=
    ⟨Nat.le_refl _, show 1 ≤ 40 by omega, Nat.le_refl _, trivial⟩
  refine (run_gives ho hhold hsegs htemp hq).mono ?_
  rintro r ⟨-, hr⟩
  refine ⟨hr.ok_iff.trans ?_, readBack_of_outcome ho (fun p hp => ?_) hr⟩
  · simp only [IsVersion, and_assoc]
  · obtain ⟨x, hx, rfl⟩ := List.mem_map.1 hp
    exact (h x hx).1

/-- A channel, digits, characters and a byte, each with an array of its own. -/
def mixedParts : List (Piece × Bytes) :=
  [(.channel 26, clearArray 1), (.digits [0x32#8, 0x30#8, 0x32#8, 0x36#8], clearArray 1),
    (.chars [0x54#8, 0x48#8, 0x4F#8, 0x52#8], clearArray 1), (.bytes [0xE9#8], clearArray 1)]

/-- All of them in one symbol. -/
theorem encodeSegments_readBack_mixed :
    ∃ segs r, mixedParts.mapM (fun x => x.1.make x.2) = some segs ∧
      encodeSegments segs .low (clearArray versionMax) (clearArray versionMax) = some r ∧
        r.ok = true ∧ ReadBack ⟨.low, versionMin, versionMax, .auto, true⟩
          (mixedParts.map Prod.fst) r.qrcode := by
  have hroomy : ∀ x ∈ mixedParts, x.1.Roomy x.2 := by
    simp only [mixedParts, List.forall_mem_cons, List.not_mem_nil, false_imp_iff, implies_true,
      and_true]
    exact ⟨⟨show 26 < 1000000 by decide, 3, by decide, by decide, by decide⟩,
      ⟨show isNumeric _ = true by decide, 2, by decide, by decide, by decide⟩,
      ⟨show isAlphanumeric _ = true by decide, 3, by decide, by decide, by decide⟩,
      ⟨trivial, 1, by decide, by decide, by decide⟩⟩
  obtain ⟨segs, hsegs, r, hr, hok, hread⟩ := encodeSegments_readBack .low hroomy
    (clearArray_room versionMax) (clearArray_room versionMax)
  have htrue : r.ok = true := hok.2 ⟨1, ⟨Nat.le_refl _, by decide⟩, by decide, by decide⟩
  exact ⟨segs, r, hsegs, hr, htrue, hread htrue⟩

/-! ## Texts and bytes -/

/-- A text. -/
theorem encodeText_readBack (ho : o.Valid) (text : List Byte)
    (htemp : bufferLenForVersion o.maxVersion ≤ temp.size)
    (hq : bufferLenForVersion o.maxVersion ≤ q.size) :
    Gives (encodeText text temp q o.ecl o.minVersion o.maxVersion o.mask o.boostEcl) fun r =>
      (r.ok = true ↔ ∃ v, o.minVersion ≤ v ∧ v ≤ o.maxVersion ∧ PiecesFit (pieceOf text) o.ecl v) ∧
        (r.ok = true → ReadBack o (pieceOf text) r.qrcode ∧ textOf (pieceOf text) = text) := by
  refine (encodeText_gives ho text htemp hq).mono ?_
  rintro r ⟨-, hr⟩
  exact ⟨hr.ok_iff, fun hok =>
    ⟨readBack_of_outcome ho (pieceOf_valid text) hr hok, textOf_pieceOf text⟩⟩

theorem thorText_fits : PiecesFit [.bytes thorText] .medium 7 := ⟨by decide, by decide⟩

/-- The text `thor`. -/
theorem encodeText_readBack_thor :
    ∃ r, encodeText thorText (clearArray versionMax) (clearArray versionMax) .medium 7 versionMax
        .auto true = some r ∧
      r.ok = true ∧ ReadBack wideOrder [.bytes thorText] r.qrcode := by
  obtain ⟨r, hr, hok, hread⟩ := encodeText_readBack wideOrder_valid thorText
    (clearArray_room versionMax) (clearArray_room versionMax)
  have htrue : r.ok = true := hok.2 ⟨7, Nat.le_refl _, wideOrder_valid.le_max, thorText_fits⟩
  exact ⟨r, hr, htrue, (hread htrue).1⟩

/-- Bytes, which are at the start of the buffer that the call works in. -/
theorem encodeBinary_readBack (ho : o.Valid) {dataLen : Nat} (hdata : dataLen ≤ temp.size)
    (htemp : bufferLenForVersion o.maxVersion ≤ temp.size)
    (hq : bufferLenForVersion o.maxVersion ≤ q.size) :
    Gives (encodeBinary temp dataLen q o.ecl o.minVersion o.maxVersion o.mask o.boostEcl) fun r =>
      (r.ok = true ↔ ∃ v, o.minVersion ≤ v ∧ v ≤ o.maxVersion ∧
        PiecesFit [.bytes (slice temp 0 dataLen)] o.ecl v) ∧
      (r.ok = true → ReadBack o [.bytes (slice temp 0 dataLen)] r.qrcode) := by
  refine (encodeBinary_gives ho hdata htemp hq).mono ?_
  rintro r ⟨-, hr⟩
  refine ⟨hr.ok_iff, readBack_of_outcome ho (fun p hp => ?_) hr⟩
  rw [List.mem_singleton.1 hp]
  trivial

/-- Twenty bytes of a cleared array. -/
theorem encodeBinary_readBack_zeros :
    ∃ r, encodeBinary (clearArray versionMax) 20 (clearArray versionMax) .medium 7 versionMax .auto
        true = some r ∧
      r.ok = true ∧ ReadBack wideOrder [.bytes (List.replicate 20 0)] r.qrcode := by
  have hroom := clearArray_room versionMax
  have hlen : 20 ≤ bufferLenForVersion versionMax := by decide
  have hzeros : slice (clearArray versionMax) 0 20 = List.replicate 20 0 := by
    refine List.eq_replicate_iff.2 ⟨length_slice .., fun b hb => ?_⟩
    obtain ⟨i, -, rfl⟩ := List.mem_map.1 hb
    rw [octetAt, clearArray, Array.getD_eq_getD_getElem?, Array.getElem?_replicate]
    split <;> rfl
  obtain ⟨r, hr, hok, hread⟩ := encodeBinary_readBack wideOrder_valid (hlen.trans hroom) hroom hroom
  rw [hzeros] at hok hread
  have htrue : r.ok = true :=
    hok.2 ⟨7, Nat.le_refl _, wideOrder_valid.le_max, by decide, by decide +kernel⟩
  exact ⟨r, hr, htrue, hread htrue⟩

/-- What was in the arrays before a call does not get into its symbol. -/
theorem encodeText_same (ho : o.Valid) (text : List Byte) {temp' q' : Bytes}
    (htemp : bufferLenForVersion o.maxVersion ≤ temp.size)
    (hq : bufferLenForVersion o.maxVersion ≤ q.size)
    (htemp' : bufferLenForVersion o.maxVersion ≤ temp'.size)
    (hq' : bufferLenForVersion o.maxVersion ≤ q'.size) :
    Gives (encodeText text temp q o.ecl o.minVersion o.maxVersion o.mask o.boostEcl) fun r =>
      Gives (encodeText text temp' q' o.ecl o.minVersion o.maxVersion o.mask o.boostEcl) fun r' =>
        r.ok = r'.ok ∧ (r.ok = true → ∃ s, IsSymbol s r.qrcode ∧ IsSymbol s r'.qrcode ∧
          pixelAt s r.qrcode = pixelAt s r'.qrcode) := by
  refine (encodeText_gives ho text htemp hq).mono ?_
  rintro r ⟨-, hr⟩
  refine (encodeText_gives ho text htemp' hq').mono ?_
  rintro r' ⟨-, hr'⟩
  exact hr.same ho hr'

/-- The text `thor`, in cleared arrays and in such that hold ones. -/
theorem encodeText_same_thor :
    ∃ r r' s, encodeText thorText (clearArray versionMax) (clearArray versionMax) .medium 7
        versionMax .auto true = some r ∧
      encodeText thorText (Array.replicate (bufferLenForVersion versionMax) 1)
        (Array.replicate (bufferLenForVersion versionMax) 1) .medium 7 versionMax .auto true =
          some r' ∧
      r.ok = true ∧ r'.ok = true ∧ IsSymbol s r.qrcode ∧ IsSymbol s r'.qrcode ∧
        pixelAt s r.qrcode = pixelAt s r'.qrcode := by
  have hroom := clearArray_room versionMax
  have hroom' : bufferLenForVersion versionMax ≤
      (Array.replicate (bufferLenForVersion versionMax) (1 : Byte)).size := by
    rw [Array.size_replicate]
  obtain ⟨r, hr, r', hr', hsame, hsymbol⟩ :=
    encodeText_same wideOrder_valid thorText hroom hroom hroom' hroom'
  obtain ⟨-, hencoded⟩ := (encodeText_gives wideOrder_valid thorText hroom hroom).of_eq hr
  have hok : r.ok = true :=
    hencoded.ok_iff.2 ⟨7, Nat.le_refl _, wideOrder_valid.le_max, thorText_fits⟩
  obtain ⟨s, hs, hs', hpixels⟩ := hsymbol hok
  exact ⟨r, r', s, hr, hr', hok, hsame ▸ hok, hs, hs', hpixels⟩

end

end Thor
