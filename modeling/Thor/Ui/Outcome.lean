import Thor.Ui.Symbol

/-!
# What a call of the encoder returns (ui/qr_generator.c)

Every call comes to its end, without a failed assertion and within its arrays. It makes the
symbol of the least version that the data fit, or none when there is no such version in the
range of the call.

- `Piece`: what a segment stands for, and its bits. `pieceOf`: the one that a text makes.
- `IsSymbolOf`: an array shows the symbol of a message.
- `Encoded`: both ways a call may end. `Made`: the symbol of a call that succeeds.
- `encodeSegmentsAdvanced_gives`, `encodeText_gives`, `encodeBinary_gives`.
-/

namespace Thor

open CLib

/-! ## Pieces -/

/-- The content of a segment. -/
inductive Piece where
  | digits (text : List Byte)
  | chars (text : List Byte)
  | bytes (data : List Byte)
  | channel (assignVal : Nat)
  deriving DecidableEq

namespace Piece

def mode : Piece → Mode
  | digits _ => .numeric
  | chars _ => .alphanumeric
  | bytes _ => .byte
  | channel _ => .eci

def numChars : Piece → Nat
  | digits text => text.length
  | chars text => text.length
  | bytes data => data.length
  | channel _ => 0

def bits : Piece → List Bool
  | digits text => numericBits text
  | chars text => alphanumericBits text
  | bytes data => bitsOf data
  | channel assignVal => eciBits assignVal

/-- What the functions that make segments ask for. -/
def Valid : Piece → Prop
  | digits text => isNumeric text = true
  | chars text => isAlphanumeric text = true
  | bytes _ => True
  | channel assignVal => assignVal < 1000000

/-- A piece with its header. -/
def message (version : Nat) (p : Piece) : List Bool :=
  toBits 4 p.mode.indicator ++ toBits (charCountBits p.mode version) p.numChars ++ p.bits

end Piece

/-- The message of some pieces. -/
def piecesMessage (version : Nat) (pieces : List Piece) : List Bool :=
  pieces.flatMap (Piece.message version)

/-- The pieces fit a symbol of the version at the level. -/
def PiecesFit (pieces : List Piece) (ecl : Ecc) (version : Nat) : Prop :=
  (∀ p ∈ pieces, p.numChars < 2 ^ charCountBits p.mode version) ∧
    (piecesMessage version pieces).length ≤ 8 * dataCodewords version ecl

/-- The segments hold the pieces. -/
def Hold (segs : List Segment) (pieces : List Piece) : Prop :=
  List.Forall₂ (fun seg p => seg.Is p.mode p.numChars p.bits) segs pieces

theorem Hold.messageBits_eq {segs : List Segment} {pieces : List Piece} (h : Hold segs pieces)
    (version : Nat) : messageBits version segs = piecesMessage version pieces := by
  induction h with
  | nil => rfl
  | cons hseg _ ih =>
    obtain ⟨hmode, hnum, hbits⟩ := hseg
    rw [messageBits, List.flatMap_cons, piecesMessage, List.flatMap_cons, segmentBits,
      Piece.message, hmode, hnum, hbits]
    exact congrArg _ ih

theorem Hold.fits_iff {segs : List Segment} {pieces : List Piece} (h : Hold segs pieces)
    (ecl : Ecc) (version : Nat) : Fits segs ecl version ↔ PiecesFit pieces ecl version := by
  have hcounts : CountsFit version segs ↔
      ∀ p ∈ pieces, p.numChars < 2 ^ charCountBits p.mode version := by
    induction h with
    | nil => simp [CountsFit]
    | cons hseg _ ih =>
      obtain ⟨hmode, hnum, -⟩ := hseg
      rw [countsFit_cons, List.forall_mem_cons, ih, hmode, hnum]
  rw [Fits, PiecesFit, hcounts, ← h.messageBits_eq, length_messageBits]

/-- The piece that `encodeText` makes of a text. -/
def pieceOf (text : List Byte) : List Piece :=
  if text.length = 0 then []
  else if isNumeric text then [.digits text]
  else if isAlphanumeric text then [.chars text]
  else [.bytes text]

/-! ## Outcomes -/

/-- The modules of a message, without mask and format. -/
def IsPlainOf (version : Nat) (ecl : Ecc) (message : List Bool) (f : Nat × Nat → Bool) : Prop :=
  ∃ data code, CodewordsOf version ecl data code ∧
    bitsOf (slice data 0 (dataCodewords version ecl)) =
      paddedBits (dataCodewords version ecl) message ∧ f = unmasked version code

/-- An array shows the symbol of a message, under a mask that was asked for. -/
def IsSymbolOf (version : Nat) (ecl : Ecc) (asked : Mask) (mask : Nat) (message : List Bool)
    (q : Bytes) : Prop :=
  IsSymbol (version * 4 + 17) q ∧ ∃ f, IsPlainOf version ecl message f ∧
    TakesMask version ecl f asked mask ∧
    pixelAt (version * 4 + 17) q = finished version ecl f mask

/-- The message decides the modules. -/
theorem IsPlainOf.unique {version : Nat} (hv : IsVersion version) {ecl : Ecc}
    {message : List Bool} {f f' : Nat × Nat → Bool} (h : IsPlainOf version ecl message f)
    (h' : IsPlainOf version ecl message f') : f = f' := by
  obtain ⟨data, code, hcode, hbits, rfl⟩ := h
  obtain ⟨data', code', hcode', hbits', rfl⟩ := h'
  have hdata := bitsOf_injective (hbits.trans hbits'.symm)
  exact unmasked_congr fun k hk => hcode.same hv hcode' hdata hk

/-- The message decides the mask as well. -/
theorem TakesMask.unique {version : Nat} {ecl : Ecc} {f : Nat × Nat → Bool} {asked : Mask}
    {m m' : Nat} (h : TakesMask version ecl f asked m) (h' : TakesMask version ecl f asked m') :
    m = m' := by
  rcases h with rfl | ⟨rfl, hm, hall, hfirst⟩
  · rcases h' with heq | ⟨habs, -⟩
    · exact Mask.pattern.inj heq
    · exact absurd habs (by simp)
  · rcases h' with habs | ⟨-, hm', hall', hfirst'⟩
    · exact absurd habs (by simp)
    · -- neither is before the other
      rcases Nat.lt_trichotomy m m' with hlt | heq | hgt
      · have h1 := hfirst' m hlt
        have h2 := hall m' hm'
        omega
      · exact heq
      · have h1 := hfirst m' hgt
        have h2 := hall' m hm
        omega

theorem IsSymbolOf.same {version : Nat} (hv : IsVersion version) {ecl : Ecc} {asked : Mask}
    {m m' : Nat} {message : List Bool} {q q' : Bytes}
    (h : IsSymbolOf version ecl asked m message q) (h' : IsSymbolOf version ecl asked m' message q') :
    m = m' ∧ pixelAt (version * 4 + 17) q = pixelAt (version * 4 + 17) q' := by
  obtain ⟨-, f, hf, hm, hpixels⟩ := h
  obtain ⟨-, f', hf', hm', hpixels'⟩ := h'
  obtain rfl := hf.unique hv hf'
  obtain rfl := hm.unique hm'
  exact ⟨rfl, hpixels.trans hpixels'.symm⟩

/-- The level that a call ends with: its own one, or the highest with room for the bits. -/
structure TakesLevel (boostEcl : Bool) (used version : Nat) (ecl e : Ecc) : Prop where
  le : ecl.level ≤ e.level
  room : used ≤ 8 * dataCodewords version e
  own : boostEcl = false → e = ecl
  highest : boostEcl = true → ∀ e', used ≤ 8 * dataCodewords version e' → e'.level ≤ e.level

theorem TakesLevel.unique {boostEcl : Bool} {used version : Nat} {ecl e e' : Ecc}
    (h : TakesLevel boostEcl used version ecl e) (h' : TakesLevel boostEcl used version ecl e') :
    e = e' := by
  cases hb : boostEcl with
  | false => rw [h.own hb, h'.own hb]
  | true =>
    have h1 := h.highest hb e' h'.room
    have h2 := h'.highest hb e h.room
    have hlevel : e.level = e'.level := by omega
    revert hlevel
    cases e <;> cases e' <;> decide

/-- What a call asks for. -/
structure Order where
  ecl : Ecc
  minVersion : Nat
  maxVersion : Nat
  mask : Mask
  boostEcl : Bool

/-- The assertions about the arguments. -/
structure Order.Valid (o : Order) : Prop where
  min_le : versionMin ≤ o.minVersion
  le_max : o.minVersion ≤ o.maxVersion
  max_le : o.maxVersion ≤ versionMax
  mask_valid : o.mask.Valid

/-- Both ways a call may end, for data that make a message in every version. -/
inductive Encoded (o : Order) (fits : Nat → Prop) (message : Nat → List Bool) (r : Encoding) : Prop
  | success (version mask : Nat) (e : Ecc) (ok : r.ok = true) (min_le : o.minVersion ≤ version)
      (le_max : version ≤ o.maxVersion) (fit : fits version)
      (least : ∀ w, o.minVersion ≤ w → w < version → ¬ fits w)
      (level : TakesLevel o.boostEcl (message version).length version o.ecl e)
      (mask_le : mask ≤ 7) (symbol : IsSymbolOf version e o.mask mask (message version) r.qrcode)
  | failure (ok : r.ok = false) (none : ∀ w, o.minVersion ≤ w → w ≤ o.maxVersion → ¬ fits w)
      (cleared : octetAt r.qrcode 0 = 0)

/-- A call succeeds when the data fit one of the versions, and otherwise fails. -/
theorem Encoded.ok_iff {o : Order} {fits : Nat → Prop} {message : Nat → List Bool} {r : Encoding}
    (h : Encoded o fits message r) :
    r.ok = true ↔ ∃ v, o.minVersion ≤ v ∧ v ≤ o.maxVersion ∧ fits v := by
  cases h with
  | success version mask e ok min_le le_max hfits =>
    exact ⟨fun _ => ⟨version, min_le, le_max, hfits⟩, fun _ => ok⟩
  | failure ok none =>
    rw [ok]
    constructor
    · simp
    · rintro ⟨v, h1, h2, hv⟩
      exact absurd hv (none v h1 h2)

/-- An array shows the symbol that a call makes: of a version in its range, with the level that
the call ends with, and under a mask that it takes. -/
structure Made (o : Order) (message : Nat → List Bool) (q : Bytes) (version : Nat) (ecl : Ecc)
    (mask : Nat) : Prop where
  min_le : o.minVersion ≤ version
  le_max : version ≤ o.maxVersion
  level : TakesLevel o.boostEcl (message version).length version o.ecl ecl
  mask_le : mask ≤ 7
  symbol : IsSymbolOf version ecl o.mask mask (message version) q

theorem Made.isVersion {o : Order} (ho : o.Valid) {message : Nat → List Bool} {q : Bytes}
    {version : Nat} {ecl : Ecc} {mask : Nat} (h : Made o message q version ecl mask) :
    IsVersion version :=
  ⟨Nat.le_trans ho.min_le h.min_le, Nat.le_trans h.le_max ho.max_le⟩

theorem Encoded.made {o : Order} {fits : Nat → Prop} {message : Nat → List Bool} {r : Encoding}
    (h : Encoded o fits message r) (hok : r.ok = true) :
    ∃ version ecl mask, Made o message r.qrcode version ecl mask ∧ fits version := by
  cases h with
  | success version mask ecl _ min_le le_max fit _ level mask_le symbol =>
    exact ⟨version, ecl, mask, ⟨min_le, le_max, level, mask_le, symbol⟩, fit⟩
  | failure hfalse => exact absurd (hok.symm.trans hfalse) (by decide)

/-- Two calls with the same order and the same data end the same way and with the same picture,
whatever their arrays held. -/
theorem Encoded.same {o : Order} (ho : o.Valid) {fits : Nat → Prop} {message : Nat → List Bool}
    {r r' : Encoding} (h : Encoded o fits message r) (h' : Encoded o fits message r') :
    r.ok = r'.ok ∧ (r.ok = true → ∃ s, IsSymbol s r.qrcode ∧ IsSymbol s r'.qrcode ∧
      pixelAt s r.qrcode = pixelAt s r'.qrcode) := by
  have hok : r.ok = r'.ok := by
    rw [Bool.eq_iff_iff, h.ok_iff, h'.ok_iff]
  refine ⟨hok, fun htrue => ?_⟩
  cases h with
  | failure hfalse => exact absurd (htrue.symm.trans hfalse) (by decide)
  | success v m e ok min_le le_max fit least level mask_le symbol =>
    cases h' with
    | failure hfalse => exact absurd (htrue.symm.trans (hok.trans hfalse)) (by decide)
    | success v' m' e' ok' min_le' le_max' fit' least' level' mask_le' symbol' =>
      have hv : IsVersion v := ⟨Nat.le_trans ho.min_le min_le, Nat.le_trans le_max ho.max_le⟩
      obtain rfl : v = v' := by
        rcases Nat.lt_trichotomy v v' with hlt | heq | hgt
        · exact absurd fit (least' v min_le hlt)
        · exact heq
        · exact absurd fit' (least v' min_le' hgt)
      obtain rfl := level.unique level'
      exact ⟨v * 4 + 17, symbol.1, symbol'.1, (symbol.same hv symbol').2⟩

/-- The arrays keep their sizes. -/
def KeepsSizes (tempBuffer qrcode : Bytes) (r : Encoding) : Prop :=
  r.tempBuffer.size = tempBuffer.size ∧ r.qrcode.size = qrcode.size

theorem bufferLen_mono {v w : Nat} (h : v ≤ w) : bufferLenForVersion v ≤ bufferLenForVersion w := by
  have hmul : (v * 4 + 17) * (v * 4 + 17) ≤ (w * 4 + 17) * (w * 4 + 17) :=
    Nat.mul_le_mul (by omega) (by omega)
  rw [bufferLenForVersion, bufferLenForVersion]
  omega

theorem bufferLen_pos (v : Nat) : 0 < bufferLenForVersion v := by
  rw [bufferLenForVersion]
  omega

/-- A call with an order. -/
def Order.run (o : Order) (segs : List Segment) (tempBuffer qrcode : Bytes) : Option Encoding :=
  encodeSegmentsAdvanced segs o.ecl o.minVersion o.maxVersion o.mask o.boostEcl tempBuffer qrcode

theorem failEncoding_gives {o : Order} {fits : Nat → Prop} {message : Nat → List Bool}
    {temp q : Bytes} (hq : 0 < q.size)
    (h : ∀ w, o.minVersion ≤ w → w ≤ o.maxVersion → ¬ fits w) :
    Gives (failEncoding temp q) fun r => KeepsSizes temp q r ∧ Encoded o fits message r := by
  rw [failEncoding, store_eq _ hq]
  refine gives_some ⟨⟨rfl, by simp⟩, .failure rfl h ?_⟩
  rw [octetAt_set _ hq, if_pos rfl]

/-- What a call has done in front of the mask, when the segments fit a version: its level, the
array of the function modules, and the symbol without mask and format. -/
structure Prepared (o : Order) (segs : List Segment) (temp q : Bytes) (version : Nat) (e : Ecc)
    (data code fm q1 : Bytes) : Prop where
  min_le : o.minVersion ≤ version
  le_max : version ≤ o.maxVersion
  fit : Fits segs o.ecl version
  least : ∀ w, o.minVersion ≤ w → w < version → ¬ Fits segs o.ecl w
  level : TakesLevel o.boostEcl (messageBits version segs).length version o.ecl e
  codewords : CodewordsOf version e data code
  bits_eq : bitsOf (slice data 0 (dataCodewords version e)) =
    paddedBits (dataCodewords version e) (messageBits version segs)
  functionMap : IsFunctionMap version fm
  symbol : IsSymbol (version * 4 + 17) q1
  pixels_eq : pixelAt (version * 4 + 17) q1 = unmasked version code
  temp_size : fm.size = temp.size
  q_size : q1.size = q.size

/-- The mask of a call plays no part before the symbol is finished. -/
theorem run_prepared {o : Order} (ho : o.Valid) {segs : List Segment}
    (hsegs : ∀ seg ∈ segs, seg.Valid) {temp q : Bytes}
    (htemp : bufferLenForVersion o.maxVersion ≤ temp.size)
    (hq : bufferLenForVersion o.maxVersion ≤ q.size) :
    ((∀ w, o.minVersion ≤ w → w ≤ o.maxVersion → ¬ Fits segs o.ecl w) ∧
      ∀ mask, mask.Valid → encodeSegmentsAdvanced segs o.ecl o.minVersion o.maxVersion mask
        o.boostEcl temp q = failEncoding temp q) ∨
    ∃ version e data code fm q1, Prepared o segs temp q version e data code fm q1 ∧
      ∀ mask, mask.Valid → encodeSegmentsAdvanced segs o.ecl o.minVersion o.maxVersion mask
        o.boostEcl temp q = (finishSymbol e mask fm q1).map fun q2 => ⟨true, fm, q2⟩ := by
  have hrange : versionMin ≤ o.minVersion ∧ o.minVersion ≤ o.maxVersion ∧
      o.maxVersion ≤ versionMax := ⟨ho.min_le, ho.le_max, ho.max_le⟩
  obtain ⟨found, hfound, hspec⟩ := searchVersion_gives hsegs o.ecl ho.max_le ho.min_le ho.le_max
    (by omega : o.maxVersion < o.minVersion + (o.maxVersion + 1))
  rcases hspec with ⟨v, rfl, h1, h2, hfits, hleast⟩ | ⟨rfl, hnone⟩
  · right
    have hv : IsVersion v := ⟨Nat.le_trans ho.min_le h1, Nat.le_trans h2 ho.max_le⟩
    have hbuf := bufferLen_mono h2
    obtain ⟨e, he, hle, hroom, hown, hhighest⟩ := boosted_gives hv o.boostEcl hfits.2
    obtain ⟨data, hdata, hsize, hbits⟩ :=
      encodeData_gives hv hsegs e ⟨hfits.1, hroom⟩ (b := q) (by omega)
    obtain ⟨⟨fm, q1⟩, hdrawn, hfm, hq1, hsfm, hsq1, code, hcode, hpix⟩ :=
      drawUnmasked_gives hv e temp (q := data) (by omega) (by omega)
    refine ⟨v, e, data, code, fm, q1, ⟨h1, h2, hfits, hleast, ⟨hle, ?_, hown, ?_⟩, hcode, hbits,
      hfm, hq1, hpix, hsfm, hsq1.trans hsize⟩, fun mask hmask => ?_⟩
    · rwa [length_messageBits]
    · rwa [length_messageBits]
    · rw [encodeSegmentsAdvanced, assert_bind hrange, assert_bind hmask, hfound, some_bind]
      show (assert ((usedBits v segs : Int) ≠ -1) >>= _) = _
      rw [assert_bind (by omega), he, some_bind, hdata, some_bind, hdrawn, some_bind]
      show (finishSymbol e mask fm q1 >>= fun q2 => some (Encoding.mk true fm q2)) = _
      cases finishSymbol e mask fm q1 <;> rfl
  · left
    refine ⟨hnone, fun mask hmask => ?_⟩
    rw [encodeSegmentsAdvanced, assert_bind hrange, assert_bind hmask, hfound, some_bind]
    rfl

theorem encodeSegmentsAdvanced_gives {o : Order} (ho : o.Valid) {segs : List Segment}
    (hsegs : ∀ seg ∈ segs, seg.Valid) {temp q : Bytes}
    (htemp : bufferLenForVersion o.maxVersion ≤ temp.size)
    (hq : bufferLenForVersion o.maxVersion ≤ q.size) :
    Gives (o.run segs temp q) fun r => KeepsSizes temp q r ∧
      Encoded o (Fits segs o.ecl) (fun v => messageBits v segs) r := by
  have hpos := bufferLen_pos o.maxVersion
  rcases run_prepared ho hsegs htemp hq with ⟨hnone, hrun⟩ | ⟨v, e, data, code, fm, q1, hp, hrun⟩
  · rw [Order.run, hrun o.mask ho.mask_valid]
    exact failEncoding_gives (by omega) hnone
  · have hv : IsVersion v := ⟨Nat.le_trans ho.min_le hp.min_le, Nat.le_trans hp.le_max ho.max_le⟩
    obtain ⟨q2, hq2, m, hm, htakes, hshows⟩ :=
      finishSymbol_gives hv hp.functionMap hp.symbol e _ ho.mask_valid
    rw [hp.pixels_eq] at hshows
    have hsize : q2.size = q1.size := by
      obtain ⟨⟨ws, hd⟩, -⟩ := hshows
      exact hd.size_eq
    rw [Order.run, hrun o.mask ho.mask_valid, hq2, Option.map_some]
    refine gives_some ⟨⟨hp.temp_size, hsize.trans hp.q_size⟩, ?_⟩
    rw [hp.pixels_eq] at htakes
    exact .success v m e rfl hp.min_le hp.le_max hp.fit hp.least hp.level hm
      ⟨hp.symbol.of_shows hshows, _, ⟨data, code, hp.codewords, hp.bits_eq, rfl⟩, htakes,
        hshows.2⟩

/-! ## A small text -/

/-- Symbols with a version in them, of every size from there on. -/
def wideOrder : Order := ⟨.medium, 7, versionMax, .auto, true⟩

theorem wideOrder_valid : wideOrder.Valid :=
  ⟨show 1 ≤ 7 by omega, show 7 ≤ 40 by omega, Nat.le_refl _, trivial⟩

/-- A cleared array for symbols up to this version. -/
def clearArray (version : Nat) : Bytes := Array.replicate (bufferLenForVersion version) 0

theorem clearArray_room (version : Nat) :
    bufferLenForVersion version ≤ (clearArray version).size := by
  rw [clearArray, Array.size_replicate]

/-- The bytes of `thor`. -/
def thorText : List Byte := [0x74#8, 0x68#8, 0x6F#8, 0x72#8]

def thorSegment : Segment := ⟨.byte, 4, thorText.toArray, 32⟩

theorem thorSegment_valid : ∀ seg ∈ [thorSegment], seg.Valid :=
  List.forall_mem_singleton.2 ⟨by decide, by decide, by decide⟩

theorem thorSegment_gives (mask : Mask) (hmask : mask.Valid) :
    Gives (encodeSegmentsAdvanced [thorSegment] .medium 7 versionMax mask true
      (clearArray versionMax) (clearArray versionMax)) fun r => r.ok = true := by
  have ho : Order.Valid ⟨.medium, 7, versionMax, mask, true⟩ :=
    ⟨wideOrder_valid.min_le, wideOrder_valid.le_max, wideOrder_valid.max_le, hmask⟩
  have hfits : Fits [thorSegment] .medium 7 := ⟨by decide, by decide⟩
  refine (encodeSegmentsAdvanced_gives ho thorSegment_valid (clearArray_room _)
    (clearArray_room _)).mono ?_
  rintro r ⟨-, hr⟩
  exact hr.ok_iff.2 ⟨7, Nat.le_refl _, ho.le_max, hfits⟩

/-! ## The automatic mask -/

/-- With the automatic mask a call does what it would do with one of the eight, whose symbol
has the least penalty of all; of several such masks it takes the first. -/
theorem encodeSegmentsAdvanced_auto {o : Order} (ho : o.Valid) {segs : List Segment}
    (hsegs : ∀ seg ∈ segs, seg.Valid) {temp q : Bytes}
    (htemp : bufferLenForVersion o.maxVersion ≤ temp.size)
    (hq : bufferLenForVersion o.maxVersion ≤ q.size) :
    Gives (encodeSegmentsAdvanced segs o.ecl o.minVersion o.maxVersion .auto o.boostEcl temp q)
      fun r => r.ok = true → ∃ m ≤ 7,
        encodeSegmentsAdvanced segs o.ecl o.minVersion o.maxVersion (.pattern m) o.boostEcl temp q =
          some r ∧
        ∀ m' ≤ 7, Gives (encodeSegmentsAdvanced segs o.ecl o.minVersion o.maxVersion (.pattern m')
          o.boostEcl temp q) fun r' => ∃ a b, getPenaltyScore r.qrcode = some a ∧
            getPenaltyScore r'.qrcode = some b ∧ a ≤ b ∧ (m' < m → a < b) := by
  have hpos := bufferLen_pos o.maxVersion
  rcases run_prepared ho hsegs htemp hq with ⟨hnone, hrun⟩ | ⟨v, e, data, code, fm, q1, hp, hrun⟩
  · rw [hrun .auto trivial, failEncoding, store_eq _ (by omega : 0 < q.size)]
    exact gives_some fun hok => absurd hok (by simp)
  · have hv : IsVersion v := ⟨Nat.le_trans ho.min_le hp.min_le, Nat.le_trans hp.le_max ho.max_le⟩
    -- the symbol of a mask, and its penalty
    have hexplicit : ∀ m ≤ 7, ∃ q2, finishSymbol e (.pattern m) fm q1 = some q2 ∧
        Shows (v * 4 + 17) q1 q2 (finished v e (unmasked v code) m) := by
      intro m hm
      obtain ⟨q2, hq2, m', -, htakes, hshows⟩ :=
        finishSymbol_gives hv hp.functionMap hp.symbol e (.pattern m) hm
      rw [hp.pixels_eq] at hshows
      rcases htakes with heq | ⟨habs, -⟩
      · rw [← Mask.pattern.inj heq] at hshows
        exact ⟨q2, hq2, hshows⟩
      · exact absurd habs (by simp)
    have hpenalty : ∀ {m q2}, Shows (v * 4 + 17) q1 q2 (finished v e (unmasked v code) m) →
        getPenaltyScore q2 = some (maskPenalty v e (unmasked v code) m) := by
      intro m q2 hshows
      rw [getPenaltyScore_eq (hp.symbol.of_shows hshows), hshows.2]
      rfl
    obtain ⟨q2, hq2, m, hm, htakes, hshows⟩ :=
      finishSymbol_gives hv hp.functionMap hp.symbol e .auto trivial
    rw [hp.pixels_eq] at htakes hshows
    obtain habs | ⟨-, -, hleast, hfirst⟩ := htakes
    · exact absurd habs (by simp)
    rw [hrun .auto trivial, hq2, Option.map_some]
    refine gives_some fun _ => ⟨m, hm, ?_, fun m' hm' => ?_⟩
    · obtain ⟨q3, hq3, hshows3⟩ := hexplicit m hm
      rw [hrun (.pattern m) hm, hq3, Shows.unique hshows hshows3]
      rfl
    · obtain ⟨q3, hq3, hshows3⟩ := hexplicit m' hm'
      rw [hrun (.pattern m') hm', hq3]
      exact gives_some ⟨_, _, hpenalty hshows, hpenalty hshows3, hleast m' (by omega), hfirst m'⟩

/-- The symbol of `thor`: one of the masks gives the same, and none of them less penalty. -/
theorem encodeSegmentsAdvanced_auto_thor :
    ∃ r m, wideOrder.run [thorSegment] (clearArray versionMax) (clearArray versionMax) = some r ∧
      r.ok = true ∧ m ≤ 7 ∧
      encodeSegmentsAdvanced [thorSegment] .medium 7 versionMax (.pattern m) true
        (clearArray versionMax) (clearArray versionMax) = some r ∧
      ∀ m' ≤ 7, ∃ r' a b, encodeSegmentsAdvanced [thorSegment] .medium 7 versionMax (.pattern m')
        true (clearArray versionMax) (clearArray versionMax) = some r' ∧
        getPenaltyScore r.qrcode = some a ∧ getPenaltyScore r'.qrcode = some b ∧ a ≤ b := by
  obtain ⟨r, hr, hok⟩ := thorSegment_gives .auto trivial
  obtain ⟨m, hm, heq, hall⟩ := (encodeSegmentsAdvanced_auto wideOrder_valid thorSegment_valid
    (clearArray_room _) (clearArray_room _)).of_eq hr hok
  refine ⟨r, m, hr, hok, hm, heq, fun m' hm' => ?_⟩
  obtain ⟨r', hr', a, b, ha, hb, hle, -⟩ := hall m' hm'
  exact ⟨r', a, b, hr', ha, hb, hle⟩

/-! ## The entries -/

/-- The outcome for segments is that for what they hold. -/
theorem Hold.outcome {o : Order} {segs : List Segment} {pieces : List Piece} (h : Hold segs pieces)
    {r : Encoding} (hr : Encoded o (Fits segs o.ecl) (fun v => messageBits v segs) r) :
    Encoded o (PiecesFit pieces o.ecl) (fun v => piecesMessage v pieces) r := by
  have hfits : Fits segs o.ecl = PiecesFit pieces o.ecl :=
    funext fun v => propext (h.fits_iff o.ecl v)
  have hmessage : (fun v => messageBits v segs) = fun v => piecesMessage v pieces :=
    funext h.messageBits_eq
  rwa [hfits, hmessage] at hr

theorem run_gives {o : Order} (ho : o.Valid) {segs : List Segment} {pieces : List Piece}
    (h : Hold segs pieces) (hsegs : ∀ seg ∈ segs, seg.Valid) {temp q : Bytes}
    (htemp : bufferLenForVersion o.maxVersion ≤ temp.size)
    (hq : bufferLenForVersion o.maxVersion ≤ q.size) :
    Gives (o.run segs temp q) fun r => KeepsSizes temp q r ∧
      Encoded o (PiecesFit pieces o.ecl) (fun v => piecesMessage v pieces) r :=
  (encodeSegmentsAdvanced_gives ho hsegs htemp hq).mono fun _ hr => ⟨hr.1, h.outcome hr.2⟩

/-- The bits of a piece, and no more characters than those. -/
structure Piece.Fits (p : Piece) (seg : Segment) : Prop where
  holds : seg.Is p.mode p.numChars p.bits
  chars_le : p.numChars ≤ p.bits.length
  small : p.bits.length ≤ int16Max
  in_data : p.bits.length ≤ 8 * seg.data.size

theorem Piece.Fits.valid {p : Piece} {seg : Segment} (h : p.Fits seg) : seg.Valid := by
  obtain ⟨⟨-, hnum, hbits⟩, hchars, hsmall, hdata⟩ := h
  have hlen : seg.bitLength = p.bits.length := by rw [← hbits, Segment.length_bits]
  exact ⟨by omega, by omega, by omega⟩

theorem run_piece_gives {o : Order} (ho : o.Valid) {seg : Segment} {p : Piece} (h : p.Fits seg)
    {temp q : Bytes} (htemp : bufferLenForVersion o.maxVersion ≤ temp.size)
    (hq : bufferLenForVersion o.maxVersion ≤ q.size) :
    Gives (o.run [seg] temp q) fun r => KeepsSizes temp q r ∧
      Encoded o (PiecesFit [p] o.ecl) (fun v => piecesMessage v [p]) r := by
  refine run_gives ho (.cons h.holds .nil) (fun s hs => ?_) htemp hq
  rw [List.mem_singleton.1 hs]
  exact h.valid

/-- A piece with more bits than the largest symbol of the range fits no symbol of it. -/
theorem not_piecesFit {o : Order} (ho : o.Valid) {p : Piece}
    (h : int16Max < p.bits.length ∨ bufferLenForVersion o.maxVersion < (p.bits.length + 7) / 8) :
    ∀ w, o.minVersion ≤ w → w ≤ o.maxVersion → ¬ PiecesFit [p] o.ecl w := by
  rintro w h1 h2 ⟨-, hfit⟩
  have hw : IsVersion w := ⟨Nat.le_trans ho.min_le h1, Nat.le_trans h2 ho.max_le⟩
  have hraw := rawDataModules_bounds hw
  have hcap := dataCodewords_le w o.ecl
  have hbuf := bufferLen_mono h2
  have hlen : p.bits.length ≤ (piecesMessage w [p]).length := by
    rw [piecesMessage, List.flatMap_singleton, Piece.message, List.length_append]
    omega
  have hroom : rawDataModules w ≤ 8 * bufferLenForVersion w := by
    rw [bufferLenForVersion]
    omega
  rcases h with h | h
  · rw [int16Max] at h
    omega
  · omega

/-- The two packed modes of `encodeText`. -/
theorem encodePacked_gives {o : Order} (ho : o.Valid) {mode : Mode} (hmode : mode ≠ .eci)
    {n : Nat} {p : Piece} (hcount : mode.bitCount n = p.bits.length)
    (hchars : p.numChars ≤ p.bits.length) {make : Bytes → Option Segment}
    (hmake : ∀ buf : Bytes, p.bits.length ≤ int16Max → (p.bits.length + 7) / 8 ≤ buf.size →
      Gives (make buf) fun seg => seg.Is p.mode p.numChars p.bits ∧ seg.data.size = buf.size)
    {temp q : Bytes} (htemp : bufferLenForVersion o.maxVersion ≤ temp.size)
    (hq : bufferLenForVersion o.maxVersion ≤ q.size) :
    Gives (do
      let size ← calcSegmentBufferSize mode n
      if size > bufferLenForVersion o.maxVersion then failEncoding temp q
      else
        let seg ← make temp
        o.run [seg] seg.data q) fun r => KeepsSizes temp q r ∧
      Encoded o (PiecesFit [p] o.ecl) (fun v => piecesMessage v [p]) r := by
  have hpos := bufferLen_pos o.maxVersion
  have hmax : bufferLenForVersion o.maxVersion < sizeMax := by
    have hle := bufferLen_mono ho.max_le
    have h40 : bufferLenForVersion versionMax < sizeMax := by decide
    omega
  rw [calcSegmentBufferSize_eq fun h => absurd h hmode, hcount, some_bind]
  by_cases hlong : p.bits.length > int16Max
  · rw [if_pos hlong, if_pos hmax]
    exact failEncoding_gives (by omega) (not_piecesFit ho (.inl hlong))
  rw [if_neg hlong]
  by_cases hroom : (p.bits.length + 7) / 8 > bufferLenForVersion o.maxVersion
  · rw [if_pos hroom]
    exact failEncoding_gives (by omega) (not_piecesFit ho (.inr hroom))
  rw [if_neg hroom]
  refine (hmake temp (by omega) (by omega)).bind ?_
  rintro seg ⟨his, hsize⟩
  have hfits : p.Fits seg := ⟨his, hchars, by omega, by omega⟩
  rw [← hsize] at htemp
  refine (run_piece_gives ho hfits htemp hq).mono ?_
  rintro r ⟨⟨h1, h2⟩, hr⟩
  exact ⟨⟨h1.trans hsize, h2⟩, hr⟩

/-- Bytes that are in an array make a segment, when they are not too many. -/
theorem encodeBytes_gives {o : Order} (ho : o.Valid) (data : List Byte) {temp q : Bytes}
    (hdata : slice temp 0 data.length = data) (hroom : data.length ≤ temp.size)
    (htemp : bufferLenForVersion o.maxVersion ≤ temp.size)
    (hq : bufferLenForVersion o.maxVersion ≤ q.size) :
    Gives (do
      let bitLength ← calcSegmentBitLength .byte data.length
      if bitLength = -1 then failEncoding temp q
      else o.run [⟨.byte, data.length, temp, bitLength.toNat⟩] temp q) fun r => KeepsSizes temp q r ∧
      Encoded o (PiecesFit [.bytes data] o.ecl) (fun v => piecesMessage v [.bytes data]) r := by
  have hpos := bufferLen_pos o.maxVersion
  have hlen : (Piece.bytes data).bits.length = data.length * 8 := by
    rw [Piece.bits, length_bitsOf, Nat.mul_comm]
  rw [calcSegmentBitLength_eq (by simp), some_bind, Mode.bitCount]
  by_cases hlong : data.length * 8 > int16Max
  · rw [if_pos hlong, if_pos rfl]
    exact failEncoding_gives (by omega) (not_piecesFit ho (.inl (by omega)))
  rw [if_neg hlong, if_neg (by omega)]
  refine run_piece_gives ho ⟨⟨rfl, rfl, ?_⟩, ?_, by omega, ?_⟩ htemp hq
  · refine bits_of_copied (Int.toNat_natCast _) ?_
    simpa [slice] using hdata
  · rw [hlen, Piece.numChars]
    omega
  · simp only
    omega

/-- A call with a text. -/
def Order.runText (o : Order) (text : List Byte) (tempBuffer qrcode : Bytes) : Option Encoding :=
  encodeText text tempBuffer qrcode o.ecl o.minVersion o.maxVersion o.mask o.boostEcl

theorem encodeText_gives {o : Order} (ho : o.Valid) (text : List Byte) {temp q : Bytes}
    (htemp : bufferLenForVersion o.maxVersion ≤ temp.size)
    (hq : bufferLenForVersion o.maxVersion ≤ q.size) :
    Gives (o.runText text temp q) fun r => KeepsSizes temp q r ∧
      Encoded o (PiecesFit (pieceOf text) o.ecl) (fun v => piecesMessage v (pieceOf text)) r := by
  have hpos := bufferLen_pos o.maxVersion
  rw [Order.runText, encodeText, pieceOf]
  by_cases hempty : text.length = 0
  · rw [if_pos hempty, if_pos hempty]
    exact run_gives ho .nil (by simp) htemp hq
  rw [if_neg hempty, if_neg hempty]
  by_cases hnumeric : isNumeric text = true
  · rw [if_pos hnumeric, if_pos hnumeric]
    refine encodePacked_gives (p := .digits text) ho (by decide) (bitCount_numeric text) ?_ ?_
      htemp hq
    · rw [Piece.bits, ← bitCount_numeric, Mode.bitCount, Piece.numChars]
      omega
    · intro buf hsmall hroom
      rw [Piece.bits, ← bitCount_numeric] at hsmall hroom
      exact makeNumeric_gives hnumeric hsmall hroom
  rw [if_neg hnumeric, if_neg hnumeric]
  by_cases halpha : isAlphanumeric text = true
  · rw [if_pos halpha, if_pos halpha]
    refine encodePacked_gives (p := .chars text) ho (by decide) (bitCount_alphanumeric text) ?_ ?_
      htemp hq
    · rw [Piece.bits, ← bitCount_alphanumeric, Mode.bitCount, Piece.numChars]
      omega
    · intro buf hsmall hroom
      rw [Piece.bits, ← bitCount_alphanumeric] at hsmall hroom
      exact makeAlphanumeric_gives halpha hsmall hroom
  rw [if_neg halpha, if_neg halpha]
  by_cases hroom : text.length > bufferLenForVersion o.maxVersion
  · rw [if_pos hroom]
    refine failEncoding_gives (by omega) (not_piecesFit ho (.inr ?_))
    rw [Piece.bits, length_bitsOf]
    omega
  rw [if_neg hroom]
  refine (memcpy_gives (by omega)).bind ?_
  rintro temp' ⟨hsize, hdata⟩
  have hslice : slice temp' 0 text.length = text := by simpa [slice] using hdata
  refine (encodeBytes_gives (q := q) ho _ hslice (by omega) (by omega) hq).mono ?_
  rintro r ⟨⟨h1, h2⟩, hr⟩
  exact ⟨⟨h1.trans hsize, h2⟩, hr⟩

/-- A call with bytes, which are at the start of the buffer. -/
theorem encodeBinary_gives {o : Order} (ho : o.Valid) {dataLen : Nat} {dataAndTemp q : Bytes}
    (hdata : dataLen ≤ dataAndTemp.size)
    (htemp : bufferLenForVersion o.maxVersion ≤ dataAndTemp.size)
    (hq : bufferLenForVersion o.maxVersion ≤ q.size) :
    Gives (encodeBinary dataAndTemp dataLen q o.ecl o.minVersion o.maxVersion o.mask o.boostEcl)
      fun r => KeepsSizes dataAndTemp q r ∧
        Encoded o (PiecesFit [.bytes (slice dataAndTemp 0 dataLen)] o.ecl)
          (fun v => piecesMessage v [.bytes (slice dataAndTemp 0 dataLen)]) r := by
  have hlen := length_slice dataAndTemp 0 dataLen
  have hbytes := encodeBytes_gives (q := q) ho (slice dataAndTemp 0 dataLen)
    (by rw [hlen]) (by rw [hlen]; exact hdata) htemp hq
  rw [hlen] at hbytes
  exact hbytes

end Thor
