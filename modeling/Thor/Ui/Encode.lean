import Thor.Ui.Codewords
import Thor.Ui.Layout
import Thor.Ui.Penalty

/-!
# The encoder (ui/qr_generator.c)

`qrcodegen_encodeSegmentsAdvanced` and the functions that call it: the version is searched,
the level raised, the bits written and padded, the codewords made and drawn, and the mask
applied, which is the best of eight when the caller asks for that.

- `encodeData`, `drawUnmasked`, `finishSymbol`: the parts of `encodeSegmentsAdvanced`.
- `encodeText`, `encodeBinary`, `encodeSegments`: the entries.
- `encodeData_gives`: the data codewords hold `paddedBits`.
-/

namespace Thor

open CLib

/-- `enum qrcodegen_Mask`, with `auto` for -1. -/
inductive Mask where
  | auto
  | pattern (mask : Nat)
  deriving DecidableEq

/-- -1 to 7. -/
def Mask.Valid : Mask → Prop
  | auto => True
  | pattern mask => mask ≤ 7

instance : DecidablePred Mask.Valid
  | .auto => isTrue trivial
  | .pattern mask => inferInstanceAs (Decidable (mask ≤ 7))

/-- What a call returns, with the two arrays that it wrote to. -/
structure Encoding where
  ok : Bool
  tempBuffer : Bytes
  qrcode : Bytes

/-! ## The data -/

/-- The round of a segment: its header, then its bits one by one. -/
def appendSegment (version : Nat) (seg : Segment) (qrcode : Bytes) (bitLen : Nat) :
    Option (Bytes × Nat) := do
  let (qrcode, bitLen) ← appendBitsToBuffer seg.mode.indicator 4 qrcode bitLen
  let ccbits ← numCharCountBits seg.mode version
  let (qrcode, bitLen) ← appendBitsToBuffer seg.numChars ccbits qrcode bitLen
  loop seg.bitLength (fun j st => do
    let byte ← load seg.data (j >>> 3)
    let bit := (byte.toNat >>> (7 - (j &&& 7))) &&& 1
    appendBitsToBuffer bit 1 st.1 st.2) (qrcode, bitLen)

/-- The loop of the padding bytes; `rounds` is more than it needs. -/
def padLoop (dataCapacityBits : Nat) : Nat → Nat → Bytes → Nat → Option (Bytes × Nat)
  | 0, _, _, _ => none
  | rounds + 1, padByte, qrcode, bitLen =>
    if bitLen < dataCapacityBits then do
      let (qrcode, bitLen) ← appendBitsToBuffer padByte 8 qrcode bitLen
      padLoop dataCapacityBits rounds (padByte ^^^ (0xEC ^^^ 0x11)) qrcode bitLen
    else some (qrcode, bitLen)

/-- From the cleared array to the padding. -/
def encodeData (segs : List Segment) (version : Nat) (ecl : Ecc) (dataUsedBits : Int)
    (qrcode : Bytes) : Option Bytes := do
  let qrcode ← memset qrcode 0 (bufferLenForVersion version)
  let (qrcode, bitLen) ← segs.foldlM (fun st seg => appendSegment version seg st.1 st.2) (qrcode, 0)
  assert (bitLen = dataUsedBits)
  let dataCapacityBits := (← getNumDataCodewords version ecl) * 8
  assert (bitLen ≤ dataCapacityBits)
  let terminatorBits := dataCapacityBits - bitLen
  let terminatorBits := if terminatorBits > 4 then 4 else terminatorBits
  let (qrcode, bitLen) ← appendBitsToBuffer 0 terminatorBits qrcode bitLen
  let (qrcode, bitLen) ← appendBitsToBuffer 0 ((8 - bitLen % 8) % 8) qrcode bitLen
  assert (bitLen % 8 = 0)
  let (qrcode, _) ← padLoop dataCapacityBits (dataCapacityBits + 1) 0xEC qrcode bitLen
  return qrcode

/-! ## The symbol -/

/-- The variables of the loop over the masks. -/
structure MaskSearch where
  mask : Mask
  minPenalty : Int
  qrcode : Bytes

/-- `LONG_MAX`. -/
def longMax : Int := 2 ^ 63 - 1

/-- The round of a mask: it is applied, rated and taken back. -/
def tryMask (ecl : Ecc) (functionModules : Bytes) (i : Nat) (s : MaskSearch) :
    Option MaskSearch := do
  let qrcode ← applyMask functionModules s.qrcode i
  let qrcode ← drawFormatBits ecl i qrcode
  let penalty ← getPenaltyScore qrcode
  let best : Mask × Int :=
    if penalty < s.minPenalty then (.pattern i, penalty) else (s.mask, s.minPenalty)
  let qrcode ← applyMask functionModules qrcode i
  return ⟨best.1, best.2, qrcode⟩

/-- The best mask, with the symbol that the loop leaves. -/
def chooseMask (ecl : Ecc) (functionModules qrcode : Bytes) : Option (Mask × Bytes) := do
  let s ← loop 8 (tryMask ecl functionModules) ⟨.auto, longMax, qrcode⟩
  return (s.mask, s.qrcode)

/-- The mask and the format, over the modules that are drawn already. -/
def finishSymbol (ecl : Ecc) (mask : Mask) (functionModules qrcode : Bytes) : Option Bytes := do
  let (mask, qrcode) ← (if mask = .auto then chooseMask ecl functionModules qrcode
    else some (mask, qrcode))
  match mask with
  | .auto => none
  | .pattern mask => do
    assert (mask ≤ 7)
    let qrcode ← applyMask functionModules qrcode mask
    drawFormatBits ecl mask qrcode

/-- From the data codewords to the symbol without mask and format; the second buffer has the
codewords, and at the end the function modules. -/
def drawUnmasked (version : Nat) (ecl : Ecc) (tempBuffer qrcode : Bytes) :
    Option (Bytes × Bytes) := do
  let (qrcode, tempBuffer) ← addEccAndInterleave qrcode version ecl tempBuffer
  let qrcode ← initializeFunctionModules version qrcode
  let rawDataModules ← getNumRawDataModules version
  let qrcode ← drawCodewords tempBuffer (rawDataModules / 8) qrcode
  let qrcode ← drawWhiteFunctionModules qrcode version
  let tempBuffer ← initializeFunctionModules version tempBuffer
  return (tempBuffer, qrcode)

/-- `qrcodegen_encodeSegmentsAdvanced`. -/
def encodeSegmentsAdvanced (segs : List Segment) (ecl : Ecc) (minVersion maxVersion : Nat)
    (mask : Mask) (boostEcl : Bool) (tempBuffer qrcode : Bytes) : Option Encoding := do
  assert (versionMin ≤ minVersion ∧ minVersion ≤ maxVersion ∧ maxVersion ≤ versionMax)
  assert mask.Valid
  let found ← searchVersion segs ecl maxVersion (maxVersion + 1) minVersion
  match found with
  | none => do
    let qrcode ← store qrcode 0 0
    return ⟨false, tempBuffer, qrcode⟩
  | some (version, dataUsedBits) => do
    assert (dataUsedBits ≠ -1)
    let ecl ← boosted boostEcl dataUsedBits version ecl
    let qrcode ← encodeData segs version ecl dataUsedBits qrcode
    let (tempBuffer, qrcode) ← drawUnmasked version ecl tempBuffer qrcode
    let qrcode ← finishSymbol ecl mask tempBuffer qrcode
    return ⟨true, tempBuffer, qrcode⟩

/-- `qrcodegen_encodeSegments`. -/
def encodeSegments (segs : List Segment) (ecl : Ecc) (tempBuffer qrcode : Bytes) :
    Option Encoding :=
  encodeSegmentsAdvanced segs ecl versionMin versionMax .auto true tempBuffer qrcode

/-- `qrcode[0] = 0; return false`. -/
def failEncoding (tempBuffer qrcode : Bytes) : Option Encoding := do
  let qrcode ← store qrcode 0 0
  return ⟨false, tempBuffer, qrcode⟩

/-- `qrcodegen_encodeText`; the segment's data are in `tempBuffer`. -/
def encodeText (text : List Byte) (tempBuffer qrcode : Bytes) (ecl : Ecc)
    (minVersion maxVersion : Nat) (mask : Mask) (boostEcl : Bool) : Option Encoding :=
  let textLen := text.length
  if textLen = 0 then
    encodeSegmentsAdvanced [] ecl minVersion maxVersion mask boostEcl tempBuffer qrcode
  else
    let bufLen := bufferLenForVersion maxVersion
    if isNumeric text then do
      if (← calcSegmentBufferSize .numeric textLen) > bufLen then failEncoding tempBuffer qrcode
      else
        let seg ← makeNumeric text tempBuffer
        encodeSegmentsAdvanced [seg] ecl minVersion maxVersion mask boostEcl seg.data qrcode
    else if isAlphanumeric text then do
      if (← calcSegmentBufferSize .alphanumeric textLen) > bufLen then
        failEncoding tempBuffer qrcode
      else
        let seg ← makeAlphanumeric text tempBuffer
        encodeSegmentsAdvanced [seg] ecl minVersion maxVersion mask boostEcl seg.data qrcode
    else if textLen > bufLen then failEncoding tempBuffer qrcode
    else do
      let tempBuffer ← memcpy tempBuffer text
      let bitLength ← calcSegmentBitLength .byte textLen
      if bitLength = -1 then failEncoding tempBuffer qrcode
      else
        let seg : Segment :=
          { mode := .byte, numChars := textLen, data := tempBuffer, bitLength := bitLength.toNat }
        encodeSegmentsAdvanced [seg] ecl minVersion maxVersion mask boostEcl tempBuffer qrcode

/-- `qrcodegen_encodeBinary`; the data are the start of `dataAndTemp`. -/
def encodeBinary (dataAndTemp : Bytes) (dataLen : Nat) (qrcode : Bytes) (ecl : Ecc)
    (minVersion maxVersion : Nat) (mask : Mask) (boostEcl : Bool) : Option Encoding := do
  let bitLength ← calcSegmentBitLength .byte dataLen
  if bitLength = -1 then failEncoding dataAndTemp qrcode
  else
    let seg : Segment :=
      { mode := .byte, numChars := dataLen, data := dataAndTemp, bitLength := bitLength.toNat }
    encodeSegmentsAdvanced [seg] ecl minVersion maxVersion mask boostEcl dataAndTemp qrcode

/-! ## The bits of a symbol -/

/-- A segment with its header. -/
def segmentBits (version : Nat) (seg : Segment) : List Bool :=
  toBits 4 seg.mode.indicator ++ toBits (charCountBits seg.mode version) seg.numChars ++ seg.bits

/-- The segments with their headers. -/
def messageBits (version : Nat) (segs : List Segment) : List Bool :=
  segs.flatMap (segmentBits version)

/-- So many padding bytes, the first of them given. -/
def padBits : Nat → Nat → List Bool
  | 0, _ => []
  | n + 1, padByte => toBits 8 padByte ++ padBits n (padByte ^^^ (0xEC ^^^ 0x11))

/-- The zeros up to the end of a byte, when there are `n` bits of a message and room for
`capacity` bits: the terminator, as far as there is room for it, and the rest of its byte. -/
def terminatorLength (capacity n : Nat) : Nat :=
  let terminator := min 4 (capacity - n)
  terminator + (8 - (n + terminator) % 8) % 8

/-- A message to fill so many bytes. -/
def paddedBits (bytes : Nat) (message : List Bool) : List Bool :=
  let zeros := terminatorLength (bytes * 8) message.length
  message ++ List.replicate zeros false ++ padBits (bytes - (message.length + zeros) / 8) 0xEC

theorem length_segmentBits (version : Nat) (seg : Segment) :
    (segmentBits version seg).length = 4 + charCountBits seg.mode version + seg.bitLength := by
  rw [segmentBits, List.length_append, List.length_append, length_toBits, length_toBits,
    Segment.length_bits]

theorem length_messageBits (version : Nat) (segs : List Segment) :
    (messageBits version segs).length = usedBits version segs := by
  induction segs with
  | nil => rfl
  | cons seg segs ih =>
    rw [usedBits_cons, ← ih, messageBits, List.flatMap_cons, List.length_append,
      length_segmentBits]
    rfl

theorem length_padBits (n padByte : Nat) : (padBits n padByte).length = n * 8 := by
  induction n generalizing padByte with
  | zero => rfl
  | succ n ih => rw [padBits, List.length_append, length_toBits, ih, Nat.succ_mul, Nat.add_comm]

/-- The zeros end at a byte, and leave room for none, one or more whole bytes. -/
theorem terminatorLength_spec {bytes n : Nat} (h : n ≤ bytes * 8) :
    n + terminatorLength (bytes * 8) n ≤ bytes * 8 ∧
      (n + terminatorLength (bytes * 8) n) % 8 = 0 := by
  rw [terminatorLength]
  omega

theorem length_paddedBits {bytes : Nat} {message : List Bool} (h : message.length ≤ bytes * 8) :
    (paddedBits bytes message).length = bytes * 8 := by
  have hspec := terminatorLength_spec h
  rw [paddedBits, List.length_append, List.length_append, List.length_replicate, length_padBits]
  omega

/-! ## Writing them -/

theorem appendSegment_gives {version n : Nat} (hv : IsVersion version) {seg : Segment}
    (hseg : seg.Valid) (hcount : seg.numChars < 2 ^ charCountBits seg.mode version) {b : Bytes}
    {bs : List Bool} (h : Written n b bs)
    (hroom : (bs ++ segmentBits version seg).length ≤ 8 * n) :
    Gives (appendSegment version seg b bs.length) fun r =>
      Written n r.1 (bs ++ segmentBits version seg) ∧
        r.2 = (bs ++ segmentBits version seg).length ∧ r.1.size = b.size := by
  rw [List.length_append, length_segmentBits] at hroom
  have hmode : seg.mode.indicator < 2 ^ 4 := by
    cases seg.mode <;> decide
  rw [appendSegment]
  refine (appendBits_gives h (by omega) (by decide) hmode).bind ?_
  rintro ⟨b1, n1⟩ ⟨hw1, hn1, hs1⟩
  simp only at hw1 hn1 hs1 ⊢
  rw [numCharCountBits_eq hv, some_bind, hn1]
  refine (appendBits_gives hw1 ?_ (charCountBits_le hv _) hcount).bind ?_
  · rw [List.length_append, length_toBits]
    omega
  rintro ⟨b2, n2⟩ ⟨hw2, hn2, hs2⟩
  simp only at hw2 hn2 hs2 ⊢
  have hwhole : bs ++ toBits 4 seg.mode.indicator ++
      toBits (charCountBits seg.mode version) seg.numChars ++ seg.bits =
      bs ++ segmentBits version seg := by
    rw [segmentBits, ← List.append_assoc, ← List.append_assoc]
  have hhead : (bs ++ toBits 4 seg.mode.indicator ++
      toBits (charCountBits seg.mode version) seg.numChars).length =
      bs.length + 4 + charCountBits seg.mode version := by
    rw [List.length_append, List.length_append, length_toBits, length_toBits]
  generalize bs ++ toBits 4 seg.mode.indicator ++
    toBits (charCountBits seg.mode version) seg.numChars = front at hw2 hn2 hwhole hhead
  -- after `j` rounds, the first `j` bits of the segment
  refine (loop_gives (fun j st => Written n st.1 (front ++ seg.bits.take j) ∧
    st.2 = (front ++ seg.bits.take j).length ∧ st.1.size = b.size) ?_ ?_).mono ?_
  · rw [List.take_zero, List.append_nil]
    exact ⟨hw2, hn2, hs2.trans hs1⟩
  · rintro j hj ⟨b', n'⟩ ⟨hw, hn, hs⟩
    simp only at hw hn hs ⊢
    have hin : j >>> 3 < seg.data.size := by
      rw [Nat.shiftRight_eq_div_pow]
      have := hseg.in_data
      omega
    have hval : ((octetAt seg.data (j >>> 3)).toNat >>> (7 - (j &&& 7))) &&& 1 =
        (bitAt seg.data j).toNat := by
      rw [shiftRight_and_one, Nat.shiftRight_eq_div_pow, Nat.and_two_pow_sub_one_eq_mod j 3]
      rfl
    have hone : toBits 1 (bitAt seg.data j).toNat = [bitAt seg.data j] := by
      cases bitAt seg.data j <;> rfl
    have hbit : seg.bits.take (j + 1) = seg.bits.take j ++ toBits 1 (bitAt seg.data j).toNat := by
      rw [hone, List.take_add_one, Segment.bits, List.getElem?_map, List.getElem?_range hj]
      rfl
    rw [load_bind hin]
    show Gives (appendBitsToBuffer _ 1 b' n') _
    rw [hval, hn, hbit, ← List.append_assoc, ← hs]
    refine appendBits_gives hw ?_ (by decide) (Bool.toNat_lt _)
    rw [List.length_append, List.length_take, Segment.length_bits]
    omega
  · intro r hr
    rwa [List.take_of_length_le (by rw [Segment.length_bits]), hwhole] at hr

theorem appendSegments_gives {version n : Nat} (hv : IsVersion version) {segs : List Segment}
    (hsegs : ∀ seg ∈ segs, seg.Valid) (hcounts : CountsFit version segs) {b : Bytes}
    {bs : List Bool} (h : Written n b bs)
    (hroom : (bs ++ messageBits version segs).length ≤ 8 * n) :
    Gives (segs.foldlM (fun st seg => appendSegment version seg st.1 st.2) (b, bs.length)) fun r =>
      Written n r.1 (bs ++ messageBits version segs) ∧
        r.2 = (bs ++ messageBits version segs).length ∧ r.1.size = b.size := by
  induction segs generalizing b bs with
  | nil =>
    rw [messageBits, List.flatMap_nil, List.append_nil]
    exact gives_some ⟨h, rfl, rfl⟩
  | cons seg segs ih =>
    have hcons : bs ++ messageBits version (seg :: segs) =
        bs ++ segmentBits version seg ++ messageBits version segs := by
      rw [messageBits, List.flatMap_cons, ← List.append_assoc]
      rfl
    rw [hcons] at hroom ⊢
    have hfirst : (bs ++ segmentBits version seg).length ≤ 8 * n := by
      rw [List.length_append] at hroom
      omega
    obtain ⟨hcount, hcounts'⟩ := countsFit_cons.1 hcounts
    rw [List.foldlM_cons]
    refine (appendSegment_gives hv (hsegs seg (List.mem_cons_self ..)) hcount h hfirst).bind ?_
    rintro ⟨b', n'⟩ ⟨hw, hn, hs⟩
    simp only at hw hn hs
    rw [hn, ← hs]
    exact ih (fun s hs => hsegs s (List.mem_cons_of_mem seg hs)) hcounts' hw hroom

theorem padLoop_gives {n bytes : Nat} (hbytes : bytes ≤ n) :
    ∀ {rounds padByte : Nat} {b : Bytes} {bs : List Bool}, padByte < 2 ^ 8 → Written n b bs →
      bs.length % 8 = 0 → bs.length ≤ bytes * 8 → bytes * 8 < bs.length + rounds →
      Gives (padLoop (bytes * 8) rounds padByte b bs.length) fun r =>
        Written n r.1 (bs ++ padBits (bytes - bs.length / 8) padByte) ∧ r.1.size = b.size
  | 0, padByte, b, bs, _, _, _, hle, hrounds => by omega
  | rounds + 1, padByte, b, bs, hpad, h, hmod, hle, hrounds => by
    rw [padLoop]
    by_cases hlt : bs.length < bytes * 8
    · have hnext : bytes - bs.length / 8 = (bytes - (bs ++ toBits 8 padByte).length / 8) + 1 := by
        rw [List.length_append, length_toBits]
        omega
      rw [if_pos hlt, hnext, padBits, ← List.append_assoc]
      refine (appendBits_gives h (by omega) (by decide) hpad).bind ?_
      rintro ⟨b', n'⟩ ⟨hw, hn, hs⟩
      simp only at hw hn hs ⊢
      rw [hn, ← hs]
      have hlen : (bs ++ toBits 8 padByte).length = bs.length + 8 := by
        rw [List.length_append, length_toBits]
      exact padLoop_gives hbytes (Nat.xor_lt_two_pow hpad (by decide)) hw (by omega) (by omega)
        (by omega)
    · have hdone : bytes - bs.length / 8 = 0 := by omega
      rw [if_neg hlt, hdone, padBits, List.append_nil]
      exact gives_some ⟨h, rfl⟩

/-- The data codewords of a message that fits. -/
theorem encodeData_gives {version : Nat} (hv : IsVersion version) {segs : List Segment}
    (hsegs : ∀ seg ∈ segs, seg.Valid) (ecl : Ecc) (hfits : Fits segs ecl version) {b : Bytes}
    (hroom : bufferLenForVersion version ≤ b.size) :
    Gives (encodeData segs version ecl (usedBits version segs) b) fun b' =>
      b'.size = b.size ∧ bitsOf (slice b' 0 (dataCodewords version ecl)) =
        paddedBits (dataCodewords version ecl) (messageBits version segs) := by
  have hraw := (rawDataModules_bounds hv).2.2
  have hcap := dataCodewords_le version ecl
  have hbytes : dataCodewords version ecl ≤ bufferLenForVersion version := by
    rw [bufferLenForVersion]
    omega
  obtain ⟨hcounts, hused⟩ := hfits
  have hlen := length_messageBits version segs
  have hspec := terminatorLength_spec
    (by omega : (messageBits version segs).length ≤ dataCodewords version ecl * 8)
  rw [encodeData]
  refine (written_memset hroom).bind ?_
  rintro b0 ⟨hw0, hs0⟩
  refine (appendSegments_gives hv hsegs hcounts hw0 (by rw [List.nil_append]; omega)).bind ?_
  rintro ⟨b1, n1⟩ ⟨hw1, hn1, hs1⟩
  simp only [List.nil_append] at hw1 hn1 hs1 ⊢
  rw [hn1, assert_bind (by rw [hlen]), getNumDataCodewords_eq hv, some_bind,
    assert_bind (by omega)]
  have hterm : (if dataCodewords version ecl * 8 - (messageBits version segs).length > 4 then 4
      else dataCodewords version ecl * 8 - (messageBits version segs).length) =
      min 4 (dataCodewords version ecl * 8 - (messageBits version segs).length) := by
    split <;> omega
  show Gives (appendBitsToBuffer 0 (if _ then _ else _) b1 _ >>= _) _
  rw [hterm]
  refine (appendBits_gives hw1 (by omega) (by omega) (Nat.two_pow_pos _)).bind ?_
  rintro ⟨b2, n2⟩ ⟨hw2, hn2, hs2⟩
  simp only at hw2 hn2 hs2 ⊢
  rw [hn2]
  have hlen2 : (messageBits version segs ++ toBits (min 4 (dataCodewords version ecl * 8 -
      (messageBits version segs).length)) 0).length = (messageBits version segs).length +
      min 4 (dataCodewords version ecl * 8 - (messageBits version segs).length) := by
    rw [List.length_append, length_toBits]
  refine (appendBits_gives hw2 (by omega) (by omega) (Nat.two_pow_pos _)).bind ?_
  rintro ⟨b3, n3⟩ ⟨hw3, hn3, hs3⟩
  simp only at hw3 hn3 hs3 ⊢
  -- both runs of zeros together
  have hzeros : min 4 (dataCodewords version ecl * 8 - (messageBits version segs).length) +
      (8 - ((messageBits version segs).length +
        min 4 (dataCodewords version ecl * 8 - (messageBits version segs).length)) % 8) % 8 =
      terminatorLength (dataCodewords version ecl * 8) (messageBits version segs).length := rfl
  rw [hlen2, toBits_of_zero, toBits_of_zero, List.append_assoc,
    List.replicate_append_replicate, hzeros] at hw3 hn3
  generalize hbs : messageBits version segs ++ List.replicate (terminatorLength
    (dataCodewords version ecl * 8) (messageBits version segs).length) false = bs at hw3 hn3
  have hlen3 : bs.length = (messageBits version segs).length + terminatorLength
      (dataCodewords version ecl * 8) (messageBits version segs).length := by
    rw [← hbs, List.length_append, List.length_replicate]
  rw [hn3, assert_bind (by omega)]
  refine (padLoop_gives (b := b3) hbytes (by decide) hw3 (by omega) (by omega) (by omega)).bind ?_
  rintro ⟨b4, n4⟩ ⟨hw4, hs4⟩
  simp only at hw4 hs4
  refine gives_some ⟨by simp only; omega, ?_⟩
  have hbits : bs ++ padBits (dataCodewords version ecl - bs.length / 8) 0xEC =
      paddedBits (dataCodewords version ecl) (messageBits version segs) := by
    rw [paddedBits, hlen3, ← hbs]
  rw [hbits] at hw4
  have hall := hw4.bitsOf_eq (m := dataCodewords version ecl)
    (by rw [length_paddedBits (by omega), Nat.mul_comm]) hbytes
  simpa [slice] using hall

end Thor
