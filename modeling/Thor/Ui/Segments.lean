import Thor.CLib.Pack
import Thor.CLib.Str
import Mathlib.Tactic.IntervalCases

/-!
# Segments (ui/qr_generator.c, headers/qrgen.h)

A segment is the text of a symbol, or a part of it, as bits in one of the symbol's modes.

- `appendBitsToBuffer`: the writer of bits, big endian in every byte.
- `calcSegmentBitLength`: how many bits a number of characters takes in a mode, `-1` when
  these are too many.
- `makeNumeric`, `makeAlphanumeric`: three digits to ten bits, two characters to eleven.
  Both are the loop `packLoop`, at their own base, sizes and widths.
- `makeBytes`, `makeEci`: the two modes that copy.
- `appendBits_eq`, `packLoop_eq`: what the loops write, as lists of bits.
-/

namespace Thor

open CLib

/-- `enum qrcodegen_Mode`. -/
inductive Mode where
  | numeric
  | alphanumeric
  | byte
  | kanji
  | eci
  deriving DecidableEq

/-- The values of the constants. -/
def Mode.indicator : Mode → Nat
  | numeric => 0x1
  | alphanumeric => 0x2
  | byte => 0x4
  | kanji => 0x8
  | eci => 0x7

/-- `struct qrcodegen_Segment`. -/
structure Segment where
  mode : Mode
  numChars : Nat
  data : Bytes
  bitLength : Nat

/-- `INT16_MAX`. -/
def int16Max : Nat := 32767

def appendBitsToBuffer (val numBits : Nat) (buffer : Bytes) (bitLen : Nat) :
    Option (Bytes × Nat) := do
  assert (numBits ≤ 16 ∧ val >>> numBits = 0)
  loop numBits (fun k st => do
    -- the source counts down
    let i := numBits - 1 - k
    let byte ← load st.1 (st.2 >>> 3)
    let buffer ← store st.1 (st.2 >>> 3)
      (byte ||| BitVec.ofNat 8 (((val >>> i) &&& 1) <<< (7 - (st.2 &&& 7))))
    return (buffer, st.2 + 1)) (buffer, bitLen)

def calcSegmentBitLength (mode : Mode) (numChars : Nat) : Option Int :=
  if numChars > int16Max then some (-1)
  else do
    let result ← match mode with
      | .numeric => some ((numChars * 10 + 2) / 3)
      | .alphanumeric => some ((numChars * 11 + 1) / 2)
      | .byte => some (numChars * 8)
      | .kanji => some (numChars * 13)
      -- any other number of characters is an invalid argument, and an assertion fails
      | .eci => if numChars = 0 then some (3 * 8) else none
    if result > int16Max then some (-1) else some (Int.ofNat result)

/-- `SIZE_MAX`. -/
def sizeMax : Nat := 2 ^ 64 - 1

def calcSegmentBufferSize (mode : Mode) (numChars : Nat) : Option Nat := do
  let temp ← calcSegmentBitLength mode numChars
  if temp = -1 then return sizeMax
  assert (0 ≤ temp ∧ temp ≤ int16Max)
  return (temp.toNat + 7) / 8

/-! ## Characters -/

/-- `ALPHANUMERIC_CHARSET`. -/
def alphanumericCharset : List Byte :=
  (lit "0123456789ABCDEFGHIJKLMNOPQRSTUVWXYZ $%*+-./:").map fun c => BitVec.ofNat 8 c.toNat

/-- A byte from `'0'` to `'9'`. A `char` is signed, but the bytes from 128 on, negative
there, are no digits either way. -/
def isDigit (c : Byte) : Bool := decide (48 ≤ c.toNat ∧ c.toNat ≤ 57)

def isNumeric (text : List Byte) : Bool := text.all isDigit

/-- `strchr(ALPHANUMERIC_CHARSET, c) - ALPHANUMERIC_CHARSET`. -/
def charsetIndex (c : Byte) : Option Nat := alphanumericCharset.idxOf? c

def isAlphanumeric (text : List Byte) : Bool := text.all fun c => (charsetIndex c).isSome

/-! ## Making segments -/

/-- The loop of the two packed modes: `value` is a character's number, with its assertion;
`chunk` characters of the given base make a field of `width chunk` bits, and the characters
left over at the end one of their own width. -/
def packLoop (value : Byte → Option Nat) (base chunk : Nat) (width : Nat → Nat) :
    List Byte → Nat → Nat → Bytes → Nat → Option (Bytes × Nat)
  | [], accumData, accumCount, buf, bitLength =>
    if accumCount > 0 then appendBitsToBuffer accumData (width accumCount) buf bitLength
    else some (buf, bitLength)
  | c :: text, accumData, accumCount, buf, bitLength => do
    let v ← value c
    let accumData := accumData * base + v
    let accumCount := accumCount + 1
    if accumCount = chunk then
      let (buf, bitLength) ← appendBitsToBuffer accumData (width chunk) buf bitLength
      packLoop value base chunk width text 0 0 buf bitLength
    else packLoop value base chunk width text accumData accumCount buf bitLength

/-- A segment of a packed mode: the array is cleared as far as the bits go, then written. -/
def makePacked (mode : Mode) (value : Byte → Option Nat) (base chunk : Nat) (width : Nat → Nat)
    (text : List Byte) (buf : Bytes) : Option Segment := do
  let bitLen ← calcSegmentBitLength mode text.length
  assert (bitLen ≠ -1)
  let buf ← (if bitLen > 0 then memset buf 0 ((bitLen.toNat + 7) / 8) else some buf)
  let (buf, bitLength) ← packLoop value base chunk width text 0 0 buf 0
  assert ((bitLength : Int) = bitLen)
  return { mode, numChars := text.length, data := buf, bitLength }

/-- The number of a digit. -/
def digitValue (c : Byte) : Option Nat := do
  assert (isDigit c)
  return c.toNat - 48

/-- Three digits to a field of ten bits; one or two left over take four or seven. -/
def numericWidth (n : Nat) : Nat := if n = 3 then 10 else n * 3 + 1

def makeNumeric (digits : List Byte) (buf : Bytes) : Option Segment :=
  makePacked .numeric digitValue 10 3 numericWidth digits buf

/-- Two characters to a field of eleven bits; one left over takes six. -/
def alphanumericWidth (n : Nat) : Nat := if n = 2 then 11 else 6

def makeAlphanumeric (text : List Byte) (buf : Bytes) : Option Segment :=
  makePacked .alphanumeric charsetIndex 45 2 alphanumericWidth text buf

/-- `memcpy(buf, data, n)`, for arrays that do not overlap. -/
def memcpy (buf : Bytes) (data : List Byte) : Option Bytes :=
  loop data.length (fun i buf => do store buf i (data.getD i 0)) buf

def makeBytes (data : List Byte) (buf : Bytes) : Option Segment := do
  let bitLength ← calcSegmentBitLength .byte data.length
  assert (bitLength ≠ -1)
  let buf ← memcpy buf data
  return { mode := .byte, numChars := data.length, data := buf, bitLength := bitLength.toNat }

def makeEci (assignVal : Int) (buf : Bytes) : Option Segment := do
  if assignVal < 0 then none
  else if assignVal < 2 ^ 7 then
    let buf ← memset buf 0 1
    let (buf, n) ← appendBitsToBuffer assignVal.toNat 8 buf 0
    return { mode := .eci, numChars := 0, data := buf, bitLength := n }
  else if assignVal < 2 ^ 14 then
    let buf ← memset buf 0 2
    let (buf, n) ← appendBitsToBuffer 2 2 buf 0
    let (buf, n) ← appendBitsToBuffer assignVal.toNat 14 buf n
    return { mode := .eci, numChars := 0, data := buf, bitLength := n }
  else if assignVal < 1000000 then
    let buf ← memset buf 0 3
    let (buf, n) ← appendBitsToBuffer 6 3 buf 0
    let (buf, n) ← appendBitsToBuffer (assignVal.toNat >>> 10) 11 buf n
    let (buf, n) ← appendBitsToBuffer (assignVal.toNat &&& 0x3FF) 10 buf n
    return { mode := .eci, numChars := 0, data := buf, bitLength := n }
  else none

/-! ## What the loops write -/

theorem shiftRight_and_one (val i : Nat) : (val >>> i) &&& 1 = (val.testBit i).toNat := by
  rw [Nat.and_one_is_mod, Nat.toNat_testBit, Nat.shiftRight_eq_div_pow]

/-- The writer appends the bits of the number, when there is room for them. -/
theorem appendBits_gives {n : Nat} {b : Bytes} {bs : List Bool} {val numBits : Nat}
    (h : Written n b bs) (hroom : bs.length + numBits ≤ 8 * n) (hnum : numBits ≤ 16)
    (hval : val < 2 ^ numBits) :
    Gives (appendBitsToBuffer val numBits b bs.length) fun r =>
      Written n r.1 (bs ++ toBits numBits val) ∧ r.2 = (bs ++ toBits numBits val).length ∧
        r.1.size = b.size := by
  have hshift : val >>> numBits = 0 := by
    rw [Nat.shiftRight_eq_div_pow, Nat.div_eq_of_lt hval]
  rw [appendBitsToBuffer, assert_bind ⟨hnum, hshift⟩]
  -- after `k` rounds the first `k` bits of the number are in place
  refine (loop_gives (fun k st => Written n st.1 (bs ++ (toBits numBits val).take k) ∧
    st.2 = (bs ++ (toBits numBits val).take k).length ∧ st.1.size = b.size) ?_ ?_).mono ?_
  · rw [List.take_zero, List.append_nil]
    exact ⟨h, rfl, rfl⟩
  · rintro k hk ⟨buf, len⟩ ⟨hw, hlen, hsize⟩
    simp only at hw hlen hsize
    have hlen' : len < 8 * n := by
      rw [hlen, List.length_append, List.length_take, length_toBits]
      omega
    have hin : len >>> 3 < buf.size := by
      rw [Nat.shiftRight_eq_div_pow]
      have := hw.1
      omega
    have hbit : (toBits numBits val).take (k + 1) =
        (toBits numBits val).take k ++ [val.testBit (numBits - 1 - k)] := by
      rw [List.take_add_one, getElem?_toBits, if_pos hk]
      rfl
    have hstep := written_or hw (val.testBit (numBits - 1 - k)) (hlen ▸ hlen')
    rw [← hlen] at hstep
    rw [load_bind hin, store_bind _ hin, hbit, ← List.append_assoc, shiftRight_and_one,
      Nat.shiftRight_eq_div_pow, Nat.and_two_pow_sub_one_eq_mod len 3]
    refine gives_some ⟨hstep, ?_, ?_⟩
    · rw [List.length_append, ← hlen]
      rfl
    · rwa [Array.size_setIfInBounds]
  · intro st hst
    rwa [List.take_of_length_le (by rw [length_toBits])] at hst

/-- Every field of a packed mode has room for its group, and the writer takes it. -/
def WideEnough (base chunk : Nat) (width : Nat → Nat) : Prop :=
  ∀ m, m ≤ chunk → width m ≤ 16 ∧ base ^ m ≤ 2 ^ width m

section Packed

variable {value : Byte → Option Nat} {f : Byte → Nat} {base chunk : Nat} {width : Nat → Nat}

/-- The loop writes the fields of the characters, after a group begun before. -/
theorem packLoop_gives {n : Nat} (hwide : WideEnough base chunk width) :
    ∀ {text : List Byte} {g : List Nat} {b : Bytes} {bs : List Bool},
      (∀ c ∈ text, value c = some (f c) ∧ f c < base) → (∀ d ∈ g, d < base) →
      g.length < chunk → Written n b bs →
      (bs ++ pack base width (groupSizes chunk (g.length + text.length))
        (g ++ text.map f)).length ≤ 8 * n →
      Gives (packLoop value base chunk width text (packed base g) g.length b bs.length) fun r =>
        Written n r.1 (bs ++ pack base width (groupSizes chunk (g.length + text.length))
          (g ++ text.map f)) ∧
        r.2 = (bs ++ pack base width (groupSizes chunk (g.length + text.length))
          (g ++ text.map f)).length ∧ r.1.size = b.size
  | [], g, b, bs, _, hg, hlen, hw, hroom => by
    simp only [List.length_nil, Nat.add_zero, List.map_nil, List.append_nil,
      groupSizes_of_lt hlen] at hroom ⊢
    rw [packLoop]
    by_cases hempty : g.length = 0
    · rw [if_neg (by omega), if_pos hempty, pack, List.append_nil]
      exact gives_some ⟨hw, rfl, rfl⟩
    · -- the characters left over make the last field
      rw [if_neg hempty, pack, pack, List.append_nil, List.take_length] at hroom ⊢
      rw [if_pos (by omega)]
      obtain ⟨hsmall, hfits⟩ := hwide g.length (Nat.le_of_lt hlen)
      refine appendBits_gives hw ?_ hsmall (Nat.lt_of_lt_of_le (packed_lt hg) hfits)
      rwa [List.length_append, length_toBits] at hroom
  | c :: text, g, b, bs, htext, hg, hlen, hw, hroom => by
    obtain ⟨hvalue, hlt⟩ := htext c (List.mem_cons_self ..)
    have htext' : ∀ c ∈ text, value c = some (f c) ∧ f c < base :=
      fun c' hc' => htext c' (List.mem_cons_of_mem c hc')
    have hg' : ∀ d ∈ g ++ [f c], d < base := by
      intro d hd
      rcases List.mem_append.1 hd with hd | hd
      · exact hg d hd
      · rw [List.mem_singleton.1 hd]
        exact hlt
    have hpush : g ++ (c :: text).map f = (g ++ [f c]) ++ text.map f := by
      rw [List.map_cons, List.append_assoc]
      rfl
    have hcount : g.length + (c :: text).length = (g ++ [f c]).length + text.length := by
      rw [List.length_cons, List.length_append, List.length_singleton]
      omega
    rw [hpush, hcount] at hroom ⊢
    rw [packLoop, hvalue]
    show Gives (if g.length + 1 = chunk then _ else _) _
    rw [← packed_concat, show g.length + 1 = (g ++ [f c]).length by simp]
    generalize hgc : g ++ [f c] = g' at hg' hroom ⊢
    by_cases hfull : g'.length = chunk
    · -- the group is full: its field, and a new group
      rw [if_pos hfull]
      obtain ⟨hsmall, hfits⟩ := hwide chunk (Nat.le_refl _)
      have hpos : 0 < chunk := by omega
      rw [hfull, groupSizes_add hpos, pack, List.take_left' hfull, List.drop_left' hfull,
        ← List.append_assoc] at hroom ⊢
      have hval : packed base g' < 2 ^ width chunk := by
        have h := packed_lt hg'
        rw [hfull] at h
        exact Nat.lt_of_lt_of_le h hfits
      have hone : bs.length + width chunk ≤ 8 * n := by
        rw [List.length_append, List.length_append, length_toBits] at hroom
        omega
      refine (appendBits_gives hw hone hsmall hval).bind ?_
      rintro ⟨b', len'⟩ ⟨hw', hlen', hsize'⟩
      simp only at hw' hlen' hsize' ⊢
      have hrest := packLoop_gives hwide (g := []) htext' (by simp) hpos hw'
        (by simpa using hroom)
      rw [hlen']
      simp only [List.length_nil, Nat.zero_add, List.nil_append, packed_nil, hsize'] at hrest
      exact hrest
    · rw [if_neg hfull]
      have hlen' : g'.length < chunk := by
        have : g'.length = g.length + 1 := by rw [← hgc]; simp
        omega
      exact packLoop_gives hwide htext' hg' hlen' hw hroom

end Packed

/-! ## The bits of a segment -/

/-- The bits of a segment, in their order. -/
def Segment.bits (seg : Segment) : List Bool := (List.range seg.bitLength).map (bitAt seg.data)

@[simp] theorem Segment.length_bits (seg : Segment) : seg.bits.length = seg.bitLength := by
  rw [Segment.bits, List.length_map, List.length_range]

/-- The number of bits that so many characters take. -/
def Mode.bitCount : Mode → Nat → Nat
  | numeric, n => (n * 10 + 2) / 3
  | alphanumeric, n => (n * 11 + 1) / 2
  | byte, n => n * 8
  | kanji, n => n * 13
  | eci, _ => 3 * 8

/-- The length of a segment is its number of bits, and `-1` beyond `INT16_MAX`. -/
theorem calcSegmentBitLength_eq {mode : Mode} {n : Nat} (h : mode = .eci → n = 0) :
    calcSegmentBitLength mode n =
      some (if mode.bitCount n > int16Max then -1 else (mode.bitCount n : Int)) := by
  rw [calcSegmentBitLength]
  by_cases hn : n > int16Max
  · -- so many characters take more bits than that in any mode
    have hbits : mode.bitCount n > int16Max := by
      cases mode with
      | eci =>
        rw [h rfl] at hn
        exact absurd hn (by decide)
      | _ => rw [Mode.bitCount, int16Max] at *; omega
    rw [if_pos hn, if_pos hbits]
  · rw [if_neg hn]
    cases mode with
    | eci =>
      rw [h rfl]
      rfl
    | _ =>
      show (if _ then _ else _) = _
      rw [Mode.bitCount]
      split <;> rfl

/-- The size of a packed segment's array, when its bits fit a segment. -/
theorem calcSegmentBufferSize_eq {mode : Mode} {n : Nat} (h : mode = .eci → n = 0) :
    calcSegmentBufferSize mode n =
      some (if mode.bitCount n > int16Max then sizeMax else (mode.bitCount n + 7) / 8) := by
  rw [calcSegmentBufferSize, calcSegmentBitLength_eq h]
  by_cases hbits : mode.bitCount n > int16Max
  · rw [if_pos hbits, if_pos hbits]
    rfl
  · rw [if_neg hbits, if_neg hbits]
    rw [some_bind, if_neg (by omega), assert_bind ⟨by omega, by omega⟩, Int.toNat_natCast]
    rfl

section Packed

variable {value : Byte → Option Nat} {f : Byte → Nat} {base chunk : Nat} {width : Nat → Nat}

/-- A packed segment has its characters' fields as its bits. -/
theorem makePacked_gives {mode : Mode} (hmode : mode ≠ .eci) (hwide : WideEnough base chunk width)
    (hpos : 0 < chunk) {text : List Byte} {buf : Bytes}
    (htext : ∀ c ∈ text, value c = some (f c) ∧ f c < base)
    (hbits : mode.bitCount text.length =
      (pack base width (groupSizes chunk text.length) (text.map f)).length)
    (hfits : mode.bitCount text.length ≤ int16Max)
    (hroom : (mode.bitCount text.length + 7) / 8 ≤ buf.size) :
    Gives (makePacked mode value base chunk width text buf) fun seg =>
      seg.mode = mode ∧ seg.numChars = text.length ∧
        seg.bits = pack base width (groupSizes chunk text.length) (text.map f) ∧
        seg.data.size = buf.size := by
  generalize hL : mode.bitCount text.length = L at hbits hfits hroom
  rw [makePacked, calcSegmentBitLength_eq fun h => absurd h hmode, hL,
    if_neg (Nat.not_lt.2 hfits), some_bind, assert_bind (by omega)]
  -- the bytes that the bits take are clear
  have hclear : Gives (if (L : Int) > 0 then memset buf 0 ((L + 7) / 8) else some buf) fun b =>
      Written ((L + 7) / 8) b [] ∧ b.size = buf.size := by
    by_cases h0 : (L : Int) > 0
    · rw [if_pos h0]
      exact written_memset hroom
    · rw [if_neg h0]
      have hzero : (L + 7) / 8 = 0 := by omega
      exact gives_some ⟨hzero ▸ ⟨Nat.zero_le _, fun k hk => by omega⟩, rfl⟩
  refine hclear.bind fun b hb => ?_
  obtain ⟨hw, hsize⟩ := hb
  have hloop := packLoop_gives hwide (g := []) htext (by simp) hpos hw (by
    rw [List.nil_append, List.length_nil, Nat.zero_add, List.nil_append, ← hbits]
    omega)
  simp only [List.nil_append, List.length_nil, Nat.zero_add, packed_nil, ← hbits] at hloop
  refine hloop.bind ?_
  rintro ⟨data, len⟩ ⟨hw', hlen, hsize'⟩
  simp only at hw' hlen hsize' ⊢
  rw [hlen, assert_bind rfl]
  refine gives_some ⟨rfl, rfl, ?_, hsize'.trans hsize⟩
  show (List.range L).map (bitAt data) = _
  conv_lhs => rw [hbits]
  exact hw'.map_bitAt (by omega)

end Packed

/-! ## Each way to make a segment -/

/-- The number that a digit stands for. -/
def digitOf (c : Byte) : Nat := c.toNat - 48

/-- The number that a character of the set stands for. -/
def charOf (c : Byte) : Nat := (charsetIndex c).getD 0

/-- Digits as the bits of a segment. -/
def numericBits (text : List Byte) : List Bool :=
  pack 10 numericWidth (groupSizes 3 text.length) (text.map digitOf)

/-- Characters of the set as the bits of a segment. -/
def alphanumericBits (text : List Byte) : List Bool :=
  pack 45 alphanumericWidth (groupSizes 2 text.length) (text.map charOf)

theorem wideEnough_numeric : WideEnough 10 3 numericWidth := by
  intro m hm
  interval_cases m <;> decide

theorem wideEnough_alphanumeric : WideEnough 45 2 alphanumericWidth := by
  intro m hm
  interval_cases m <;> decide

theorem digitValue_eq {c : Byte} (h : isDigit c = true) :
    digitValue c = some (digitOf c) ∧ digitOf c < 10 := by
  rw [digitValue, assert_bind h]
  rw [isDigit, decide_eq_true_iff] at h
  refine ⟨rfl, ?_⟩
  rw [digitOf]
  omega

theorem length_alphanumericCharset : alphanumericCharset.length = 45 := by
  rw [alphanumericCharset, List.length_map]
  rfl

/-- The place of a character of the set, and the character at that place. -/
theorem charsetIndex_eq {c : Byte} (h : (charsetIndex c).isSome = true) :
    charsetIndex c = some (charOf c) ∧ charOf c < 45 ∧
      alphanumericCharset.getD (charOf c) 0 = c := by
  obtain ⟨i, hi⟩ := Option.isSome_iff_exists.1 h
  have hchar : charOf c = i := by rw [charOf, hi]; rfl
  obtain ⟨hlt, heq, -⟩ := List.idxOf?_eq_some_iff.1 hi
  rw [hchar, List.getD_eq_getElem _ _ hlt]
  exact ⟨hi, length_alphanumericCharset ▸ hlt, heq⟩

theorem bitCount_numeric (text : List Byte) :
    Mode.numeric.bitCount text.length = (numericBits text).length := by
  rw [numericBits, length_pack_groupSizes, Mode.bitCount]
  generalize text.length = n
  have hmod : n % 3 < 3 := Nat.mod_lt n (by decide)
  obtain h | h | h : n % 3 = 0 ∨ n % 3 = 1 ∨ n % 3 = 2 := by omega
  all_goals
    simp [h, numericWidth]
    omega

theorem bitCount_alphanumeric (text : List Byte) :
    Mode.alphanumeric.bitCount text.length = (alphanumericBits text).length := by
  rw [alphanumericBits, length_pack_groupSizes, Mode.bitCount]
  generalize text.length = n
  obtain h | h : n % 2 = 0 ∨ n % 2 = 1 := by omega
  all_goals
    simp [h, alphanumericWidth]
    omega

/-- What a segment is to be: its mode, its number of characters and its bits. -/
def Segment.Is (seg : Segment) (mode : Mode) (numChars : Nat) (bits : List Bool) : Prop :=
  seg.mode = mode ∧ seg.numChars = numChars ∧ seg.bits = bits

theorem makeNumeric_gives {text : List Byte} {buf : Bytes} (htext : isNumeric text = true)
    (hfits : Mode.numeric.bitCount text.length ≤ int16Max)
    (hroom : (Mode.numeric.bitCount text.length + 7) / 8 ≤ buf.size) :
    Gives (makeNumeric text buf) fun seg =>
      seg.Is .numeric text.length (numericBits text) ∧ seg.data.size = buf.size := by
  have hdigit : ∀ c ∈ text, digitValue c = some (digitOf c) ∧ digitOf c < 10 :=
    fun c hc => digitValue_eq (List.all_eq_true.1 htext c hc)
  refine (makePacked_gives (by decide) wideEnough_numeric (by decide) hdigit
    (bitCount_numeric text) hfits hroom).mono ?_
  rintro seg ⟨hmode, hnum, hbits, hsize⟩
  exact ⟨⟨hmode, hnum, hbits⟩, hsize⟩

theorem makeAlphanumeric_gives {text : List Byte} {buf : Bytes}
    (htext : isAlphanumeric text = true)
    (hfits : Mode.alphanumeric.bitCount text.length ≤ int16Max)
    (hroom : (Mode.alphanumeric.bitCount text.length + 7) / 8 ≤ buf.size) :
    Gives (makeAlphanumeric text buf) fun seg =>
      seg.Is .alphanumeric text.length (alphanumericBits text) ∧ seg.data.size = buf.size := by
  have hchar : ∀ c ∈ text, charsetIndex c = some (charOf c) ∧ charOf c < 45 := by
    intro c hc
    have h := charsetIndex_eq (List.all_eq_true.1 htext c hc)
    exact ⟨h.1, h.2.1⟩
  refine (makePacked_gives (by decide) wideEnough_alphanumeric (by decide) hchar
    (bitCount_alphanumeric text) hfits hroom).mono ?_
  rintro seg ⟨hmode, hnum, hbits, hsize⟩
  exact ⟨⟨hmode, hnum, hbits⟩, hsize⟩

/-- The bytes are copied to the start of the array. -/
theorem memcpy_gives {buf : Bytes} {data : List Byte} (h : data.length ≤ buf.size) :
    Gives (memcpy buf data) fun b =>
      b.size = buf.size ∧ (List.range data.length).map (octetAt b) = data := by
  refine (loop_gives (fun k b => b.size = buf.size ∧ ∀ i < k, octetAt b i = data.getD i 0)
    ⟨rfl, fun i hi => absurd hi (Nat.not_lt_zero i)⟩ ?_).mono ?_
  · rintro k hk b ⟨hsize, hb⟩
    have hin : k < b.size := by omega
    rw [store_eq _ hin]
    refine gives_some ⟨by rwa [Array.size_setIfInBounds], fun i hi => ?_⟩
    rw [octetAt_set _ hin]
    by_cases hki : k = i
    · rw [if_pos hki, hki]
    · rw [if_neg hki, hb i (by omega)]
  · rintro b ⟨hsize, hb⟩
    refine ⟨hsize, List.ext_getElem (by simp) fun i _ hi => ?_⟩
    rw [List.getElem_map, List.getElem_range, hb i hi, List.getD_eq_getElem _ _ hi]

/-- A segment of bytes has the bits of the bytes. -/
theorem bits_of_copied {seg : Segment} {data : List Byte} (hlen : seg.bitLength = data.length * 8)
    (hdata : (List.range data.length).map (octetAt seg.data) = data) : seg.bits = bitsOf data := by
  rw [Segment.bits, hlen, map_bitAt_eq, hdata]

theorem makeBytes_gives {data : List Byte} {buf : Bytes} (hfits : data.length * 8 ≤ int16Max)
    (hroom : data.length ≤ buf.size) :
    Gives (makeBytes data buf) fun seg =>
      seg.Is .byte data.length (bitsOf data) ∧ seg.data.size = buf.size := by
  rw [makeBytes, calcSegmentBitLength_eq (by simp)]
  rw [Mode.bitCount, if_neg (Nat.not_lt.2 hfits), some_bind, assert_bind (by omega)]
  refine (memcpy_gives hroom).bind ?_
  rintro b ⟨hsize, hdata⟩
  exact gives_some ⟨⟨rfl, rfl, bits_of_copied (Int.toNat_natCast _) hdata⟩, hsize⟩

/-! ## Extended channels -/

/-- The designator of a channel: one, two or three bytes, told apart by their first bits. -/
def eciBits (v : Nat) : List Bool :=
  if v < 2 ^ 7 then toBits 8 v
  else if v < 2 ^ 14 then toBits 2 2 ++ toBits 14 v
  else toBits 3 6 ++ toBits 11 (v >>> 10) ++ toBits 10 (v &&& 0x3FF)

/-- The bits that an array was cleared for, as those of a segment. -/
theorem is_of_written {seg : Segment} {n : Nat} {bs : List Bool} (h : Written n seg.data bs)
    (hlen : seg.bitLength = bs.length) (hn : bs.length ≤ 8 * n) : seg.bits = bs := by
  rw [Segment.bits, hlen]
  exact h.map_bitAt hn

theorem makeEci_gives {v : Nat} {buf : Bytes} (hv : v < 1000000) (hroom : 3 ≤ buf.size) :
    Gives (makeEci v buf) fun seg => seg.Is .eci 0 (eciBits v) ∧ seg.data.size = buf.size := by
  rw [makeEci, if_neg (by omega), Int.toNat_natCast, eciBits]
  by_cases h1 : v < 2 ^ 7
  · rw [if_pos h1, if_pos (by omega)]
    refine (written_memset (by omega)).bind ?_
    rintro b0 ⟨hw0, hs0⟩
    refine (appendBits_gives hw0 (by decide) (by decide) (by omega)).bind ?_
    rintro ⟨b1, n1⟩ ⟨hw1, hn1, hs1⟩
    simp only [List.nil_append] at hw1 hn1 hs1
    exact gives_some ⟨⟨rfl, rfl, is_of_written hw1 hn1 (by simp)⟩, hs1.trans hs0⟩
  rw [if_neg h1, if_neg (by omega)]
  by_cases h2 : v < 2 ^ 14
  · rw [if_pos h2, if_pos (by omega)]
    refine (written_memset (by omega)).bind ?_
    rintro b0 ⟨hw0, hs0⟩
    refine (appendBits_gives hw0 (by decide) (by decide) (by decide)).bind ?_
    rintro ⟨b1, n1⟩ ⟨hw1, hn1, hs1⟩
    simp only [List.nil_append] at hw1 hn1 hs1 ⊢
    rw [hn1]
    refine (appendBits_gives hw1 (by simp) (by decide) h2).bind ?_
    rintro ⟨b2, n2⟩ ⟨hw2, hn2, hs2⟩
    exact gives_some ⟨⟨rfl, rfl, is_of_written hw2 hn2 (by simp)⟩, hs2.trans (hs1.trans hs0)⟩
  rw [if_neg h2, if_neg (by omega), if_pos (by omega)]
  refine (written_memset hroom).bind ?_
  rintro b0 ⟨hw0, hs0⟩
  refine (appendBits_gives hw0 (by decide) (by decide) (by decide)).bind ?_
  rintro ⟨b1, n1⟩ ⟨hw1, hn1, hs1⟩
  simp only [List.nil_append] at hw1 hn1 hs1 ⊢
  have hhigh : v >>> 10 < 2 ^ 11 := by rw [Nat.shiftRight_eq_div_pow]; omega
  have hlow : v &&& 0x3FF < 2 ^ 10 := by
    rw [Nat.and_two_pow_sub_one_eq_mod v 10]
    exact Nat.mod_lt _ (by decide)
  rw [hn1]
  refine (appendBits_gives hw1 (by simp) (by decide) hhigh).bind ?_
  rintro ⟨b2, n2⟩ ⟨hw2, hn2, hs2⟩
  simp only at hw2 hn2 hs2 ⊢
  rw [hn2]
  refine (appendBits_gives hw2 (by simp) (by decide) hlow).bind ?_
  rintro ⟨b3, n3⟩ ⟨hw3, hn3, hs3⟩
  refine gives_some ⟨⟨rfl, rfl, is_of_written hw3 hn3 (by simp)⟩, ?_⟩
  exact hs3.trans (hs2.trans (hs1.trans hs0))

end Thor
