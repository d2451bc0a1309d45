import Thor.CLib.Pack

/-!
# The content of the standard

The data codewords of a symbol are read from the left: the indicator of a mode, a number of
characters in the width of mode and version, and the characters, until the terminator or the
end. As in `Qr.Symbols`, nothing here is taken from an encoder. Kanji are not read.

- `readPart`: the characters of one mode.
- `readParts`: the whole content. `textOf`: the text that it spells.
- `readParts_cons`, `readParts_end`: one part is read in front of the others.
-/

namespace Qr

open CLib

inductive Mode where
  | numeric | alphanumeric | byte | eci
  deriving DecidableEq

/-- The mode of an indicator; the terminator has none. -/
def Mode.ofIndicator : Nat → Option Mode
  | 1 => some numeric
  | 2 => some alphanumeric
  | 4 => some byte
  | 7 => some eci
  | _ => none

/-- The width of the number of characters. -/
def countBits (mode : Mode) (version : Nat) : Nat :=
  match mode with
  | .numeric => if version ≤ 9 then 10 else if version ≤ 26 then 12 else 14
  | .alphanumeric => if version ≤ 9 then 9 else if version ≤ 26 then 11 else 13
  | .byte => if version ≤ 9 then 8 else 16
  | .eci => 0

/-- The content of one mode. -/
inductive Part where
  | numeric (text : List Byte)
  | alphanumeric (text : List Byte)
  | byte (data : List Byte)
  | eci (assignment : Nat)
  deriving DecidableEq

def Part.mode : Part → Mode
  | numeric _ => .numeric
  | alphanumeric _ => .alphanumeric
  | byte _ => .byte
  | eci _ => .eci

/-- The digit of a value. -/
def digitOfValue (value : Nat) : Byte := BitVec.ofNat 8 (48 + value)

/-- The characters of the alphanumeric mode in the order of their values: the digits, the
letters, and then a blank, `$`, `%`, `*`, `+`, `-`, `.`, `/` and `:`. -/
def charOfValue (value : Nat) : Byte :=
  if value < 10 then digitOfValue value
  else if value < 36 then BitVec.ofNat 8 (65 + (value - 10))
  else [32#8, 36#8, 37#8, 42#8, 43#8, 45#8, 46#8, 47#8, 58#8].getD (value - 36) 0

/-- Three digits are in ten bits, two in seven and one in four. -/
def digitsWidth : Nat → Nat
  | 1 => 4
  | 2 => 7
  | _ => 10

/-- Two characters are in eleven bits, and one is in six. -/
def charsWidth : Nat → Nat
  | 1 => 6
  | _ => 11

/-- The bytes in some bits. -/
def readBytes (n : Nat) (bits : List Bool) : List Byte :=
  (List.range n).map fun i => BitVec.ofNat 8 (ofBits ((bits.drop (8 * i)).take 8))

/-- The assignment of a channel, whose length is told by the ones at its start. -/
def readAssignment (bits : List Bool) : Option (Nat × List Bool) :=
  if bits.take 1 = [false] then some (ofBits (bits.take 8), bits.drop 8)
  else if bits.take 2 = [true, false] then
    some (ofBits ((bits.drop 2).take 14), bits.drop 16)
  else if bits.take 3 = [true, true, false] then
    some (ofBits ((bits.drop 3).take 21), bits.drop 24)
  else none

/-- So many characters of a mode, and the bits behind them. -/
def readPart : Mode → Nat → List Bool → Option (Part × List Bool)
  | .numeric, n, bits => do
    let (values, rest) ← unpack 10 digitsWidth (groupSizes 3 n) bits
    return (.numeric (values.map digitOfValue), rest)
  | .alphanumeric, n, bits => do
    let (values, rest) ← unpack 45 charsWidth (groupSizes 2 n) bits
    return (.alphanumeric (values.map charOfValue), rest)
  | .byte, n, bits =>
    if bits.length < 8 * n then none else some (.byte (readBytes n bits), bits.drop (8 * n))
  | .eci, _, bits => do
    let (assignment, rest) ← readAssignment bits
    return (.eci assignment, rest)

/-- The number of characters and the characters. -/
def readCounted (version : Nat) (mode : Mode) (bits : List Bool) : Option (Part × List Bool) :=
  readPart mode (ofBits (bits.take (countBits mode version))) (bits.drop (countBits mode version))

/-- The content up to the terminator; `fuel` is more than the number of bits. -/
def readParts (version : Nat) : Nat → List Bool → Option (List Part)
  | 0, _ => none
  | fuel + 1, bits =>
    if bits.length < 4 ∨ ofBits (bits.take 4) = 0 then some []
    else do
      let mode ← Mode.ofIndicator (ofBits (bits.take 4))
      let (p, rest) ← readCounted version mode (bits.drop 4)
      let ps ← readParts version fuel rest
      return p :: ps

/-- The text of some parts; a channel says how to understand it, and spells nothing. -/
def textOf (parts : List Part) : List Byte :=
  parts.flatMap fun
    | .numeric text => text
    | .alphanumeric text => text
    | .byte data => data
    | .eci _ => []

/-! ## Reading what has been written -/

/-- Bytes come back from their bits. -/
theorem readBytes_bitsOf (data : List Byte) (rest : List Bool) :
    readBytes data.length (bitsOf data ++ rest) = data := by
  refine List.ext_getElem (by simp [readBytes]) fun i _ hi => ?_
  have hbyte : ((bitsOf data ++ rest).drop (8 * i)).take 8 = toBits 8 (data[i]).toNat := by
    refine List.ext_getElem? fun k => ?_
    rw [List.getElem?_take, List.getElem?_drop, getElem?_toBits]
    by_cases hk : k < 8
    · rw [if_pos hk, if_pos hk, List.getElem?_append_left (by rw [length_bitsOf]; omega),
        getElem?_bitsOf, show (8 * i + k) / 8 = i by omega, List.getElem?_eq_getElem hi,
        show 7 - (8 * i + k) % 8 = 8 - 1 - k by omega]
      rfl
    · rw [if_neg hk, if_neg hk]
  simp only [readBytes, List.getElem_map, List.getElem_range, hbyte]
  rw [ofBits_toBits_of_lt (data[i]).isLt, BitVec.ofNat_toNat, BitVec.setWidth_eq]

theorem ofIndicator_bounds {indicator : Nat} {mode : Mode}
    (h : Mode.ofIndicator indicator = some mode) : indicator ≠ 0 ∧ indicator < 2 ^ 4 := by
  unfold Mode.ofIndicator at h
  split at h <;> simp_all

/-- A part is read, and then what follows it. -/
theorem readParts_cons {version indicator count : Nat} {mode : Mode} {bits rest : List Bool}
    {part : Part} (hmode : Mode.ofIndicator indicator = some mode)
    (hcount : count < 2 ^ countBits mode version)
    (hpart : readPart mode count (bits ++ rest) = some (part, rest)) (fuel : Nat) :
    readParts version (fuel + 1)
        (toBits 4 indicator ++ (toBits (countBits mode version) count ++ (bits ++ rest))) =
      (readParts version fuel rest).map (part :: ·) := by
  obtain ⟨hne, hlt⟩ := ofIndicator_bounds hmode
  have hcounted : readCounted version mode
      (toBits (countBits mode version) count ++ (bits ++ rest)) = some (part, rest) := by
    rw [readCounted, List.take_left' (length_toBits _ _), List.drop_left' (length_toBits _ _),
      ofBits_toBits_of_lt hcount, hpart]
  rw [readParts, List.take_left' (length_toBits 4 _), ofBits_toBits_of_lt hlt,
    if_neg (by simp [hne]), hmode, some_bind, List.drop_left' (length_toBits 4 _), hcounted,
    some_bind]
  show ((readParts version fuel rest) >>= fun parts => some (part :: parts)) = _
  cases readParts version fuel rest <;> rfl

theorem readParts_end {version fuel : Nat} {bits : List Bool}
    (h : bits.length < 4 ∨ ofBits (bits.take 4) = 0) :
    readParts version (fuel + 1) bits = some [] := by
  rw [readParts, if_pos h]

end Qr
