import Thor.CLib.Bits
import Thor.CLib.Mem
import Thor.Core.World

/-!
# The text of a digest (security/hash.c)

`__compute_hash` allocates `1 + EVP_MAX_MD_SIZE` bytes and prints the bytes of the digest
into them, two digits each. The digest itself is OpenSSL's.

- `snprintfAt`: `snprintf` into a part of an array.
- `renderHash`: the loop of `__compute_hash`; `renderHash_eq`: what it leaves of the array.
- `readHash_hexText`: the text determines the digest.
- `renderHash_iff`: the array is large enough for digests of at most half its size, and then
  its text is a text of hexadecimal digits from which the digest can be read.
-/

namespace Thor

open CLib

/-! ## The loop -/

/-- `EVP_MAX_MD_SIZE` -/
def evpMaxMdSize : Nat := 64

/-- `snprintf(&mem[off], size, ..)` with what the format makes. -/
def snprintfAt (mem : Str) (off size : Nat) (made : Str) : Option Str :=
  let written := made.take (size - 1) ++ ['\x00']
  if off + written.length ≤ mem.length then
    some (mem.take off ++ (written ++ mem.drop (off + written.length)))
  else none

def hexDigit (n : Nat) : Char := hexDigits.getD n '0'

/-- `"%02x"` -/
def hexPair (b : Byte) : Str := [hexDigit (b.toNat / 16), hexDigit (b.toNat % 16)]

/-- A round of the loop of `__compute_hash`. -/
def renderByte (md : List Byte) (i : Nat) (hash : Str) : Option Str :=
  snprintfAt hash (i * 2) (16 * 2) (hexPair (md.getD i 0))

/-- `__compute_hash`, from its `calloc` on, with the digest in `md_value`. -/
def renderHash (md : List Byte) : Option Str :=
  loop md.length (renderByte md) (List.replicate (1 + evpMaxMdSize) '\x00')

/-! ## What it leaves -/

def hexText (md : List Byte) : Str := md.flatMap hexPair

@[simp] theorem length_hexText (md : List Byte) : (hexText md).length = 2 * md.length := by
  induction md with
  | nil => rfl
  | cons b md ih =>
    rw [hexText, List.flatMap_cons, List.length_append, ← hexText, ih, List.length_cons]
    show 2 + 2 * md.length = _
    omega

theorem hexText_concat (md : List Byte) (b : Byte) : hexText (md ++ [b]) = hexText md ++ hexPair b := by
  rw [hexText, List.flatMap_append, List.flatMap_singleton, hexText]

/-- Two digits and their terminator, behind the text so far. -/
theorem snprintfAt_pair (text : Str) {n : Nat} (hn : 3 ≤ n) (b : Byte) :
    snprintfAt (text ++ List.replicate n '\x00') text.length (16 * 2) (hexPair b) =
      some (text ++ hexPair b ++ List.replicate (n - 2) '\x00') := by
  obtain ⟨m, rfl⟩ : ∃ m, n = m + 3 := ⟨n - 3, by omega⟩
  have hfit : text.length + 3 ≤ (text ++ List.replicate (m + 3) '\x00').length := by
    rw [List.length_append, List.length_replicate]
    omega
  have hrest : (text ++ List.replicate (m + 3) '\x00').drop (text.length + 3) =
      List.replicate m '\x00' := by
    rw [List.drop_append, List.drop_eq_nil_of_le (by omega), List.nil_append,
      List.drop_replicate]
    congr 1
    omega
  have hwritten : (hexPair b).take (16 * 2 - 1) ++ ['\x00'] = hexPair b ++ ['\x00'] := rfl
  have hlen : (hexPair b ++ ['\x00']).length = 3 := rfl
  have htail : ['\x00'] ++ List.replicate m '\x00' = List.replicate (m + 3 - 2) '\x00' := rfl
  rw [snprintfAt, hwritten, hlen, if_pos hfit, List.take_left, hrest, List.append_assoc, htail,
    List.append_assoc]

/-- There is no room for two digits and their terminator. -/
theorem snprintfAt_pair_none (text : Str) {n : Nat} (hn : n < 3) (b : Byte) :
    snprintfAt (text ++ List.replicate n '\x00') text.length (16 * 2) (hexPair b) = none := by
  have hwritten : (hexPair b).take (16 * 2 - 1) ++ ['\x00'] = hexPair b ++ ['\x00'] := rfl
  have hlen : (hexPair b ++ ['\x00']).length = 3 := rfl
  rw [snprintfAt, hwritten, hlen, if_neg]
  rw [List.length_append, List.length_replicate]
  omega

/-- The text of a part of the digest, with zeros behind it. -/
def partlyRendered (md : List Byte) (i : Nat) : Str :=
  hexText (md.take i) ++ List.replicate (65 - 2 * i) '\x00'

theorem length_hexText_take {md : List Byte} {i : Nat} (hi : i ≤ md.length) :
    (hexText (md.take i)).length = i * 2 := by
  rw [length_hexText, List.length_take, Nat.min_eq_left hi, Nat.mul_comm]

theorem renderHash_rounds {md : List Byte} {n : Nat} (hn : n ≤ md.length) (h32 : n ≤ 32) :
    loop n (renderByte md) (List.replicate (1 + evpMaxMdSize) '\x00') =
      some (partlyRendered md n) := by
  induction n with
  | zero => rfl
  | succ n ih =>
    have hget : md.take n ++ [md.getD n 0] = md.take (n + 1) := by
      rw [List.getD_eq_getElem _ _ hn, List.take_append_getElem]
    have hstep := snprintfAt_pair (hexText (md.take n)) (n := 65 - 2 * n) (by omega)
      (md.getD n 0)
    rw [length_hexText_take (by omega), ← hexText_concat, hget] at hstep
    rw [loop_succ, ih (by omega) (by omega), some_bind, renderByte]
    refine hstep.trans ?_
    rw [partlyRendered, Nat.sub_sub, Nat.mul_succ]

/-- The array holds the text of a digest of up to half of its size. -/
theorem renderHash_eq {md : List Byte} (h : md.length ≤ 32) :
    renderHash md = some (hexText md ++ List.replicate (65 - 2 * md.length) '\x00') := by
  rw [renderHash, renderHash_rounds (Nat.le_refl _) h, partlyRendered, List.take_length]

/-- The text of a larger one runs over its end. -/
theorem renderHash_none {md : List Byte} (h : 32 < md.length) : renderHash md = none := by
  refine loop_none_mono h ?_
  rw [loop_succ, renderHash_rounds (by omega) (Nat.le_refl _), some_bind, renderByte]
  have hstep := snprintfAt_pair_none (hexText (md.take 32)) (n := 1) (by decide)
    (md.getD 32 0)
  rwa [length_hexText_take (by omega)] at hstep

/-! ## Reading the text -/

def readHash : Str → Option (List Byte)
  | [] => some []
  | [_] => none
  | c :: c' :: text => do
    let md ← readHash text
    return BitVec.ofNat 8 (hexDigits.idxOf c * 16 + hexDigits.idxOf c') :: md

theorem idxOf_hexDigit {n : Nat} (h : n < 16) : hexDigits.idxOf (hexDigit n) = n := by
  have hall : ∀ n < 16, hexDigits.idxOf (hexDigit n) = n := by decide +kernel
  exact hall n h

theorem hexDigit_mem {n : Nat} (h : n < 16) : hexDigit n ∈ hexDigits := by
  have hall : ∀ n < 16, hexDigit n ∈ hexDigits := by decide +kernel
  exact hall n h

theorem mem_hexText {md : List Byte} {c : Char} (hc : c ∈ hexText md) : c ∈ hexDigits := by
  obtain ⟨b, -, hc⟩ := List.mem_flatMap.1 hc
  have hb := b.isLt
  have hpair : c = hexDigit (b.toNat / 16) ∨ c = hexDigit (b.toNat % 16) := by
    simpa [hexPair] using hc
  rcases hpair with rfl | rfl
  · exact hexDigit_mem (by omega)
  · exact hexDigit_mem (by omega)

/-- **The text determines the digest.** -/
theorem readHash_hexText (md : List Byte) : readHash (hexText md) = some md := by
  induction md with
  | nil => rfl
  | cons b md ih =>
    have hb := b.isLt
    have hval : hexDigits.idxOf (hexDigit (b.toNat / 16)) * 16 +
        hexDigits.idxOf (hexDigit (b.toNat % 16)) = b.toNat := by
      rw [idxOf_hexDigit (by omega), idxOf_hexDigit (by omega)]
      omega
    rw [hexText, List.flatMap_cons, ← hexText]
    show (readHash (hexText md) >>= _) = _
    rw [ih, some_bind, hval, BitVec.ofNat_toNat, BitVec.setWidth_eq]
    rfl

theorem hexText_injective : Function.Injective hexText := by
  intro md md' h
  have hread := readHash_hexText md
  rw [h, readHash_hexText] at hread
  exact (Option.some.inj hread).symm

/-- The string that `__compute_hash` returns holds the digest. -/
theorem cstr_renderHash {md : List Byte} (h : md.length ≤ 32) :
    (renderHash md).map cstr = some (hexText md) := by
  obtain ⟨n, hn⟩ : ∃ n, 65 - 2 * md.length = n + 1 := ⟨64 - 2 * md.length, by omega⟩
  have hnul : '\x00' ∉ hexText md := fun hmem => absurd (mem_hexText hmem) (by decide)
  rw [renderHash_eq h, hn, List.replicate_succ]
  exact congrArg some (cstr_append_nul hnul _)

/-- **The text of a digest.** It stays inside its array exactly when the digest has at most
half of `EVP_MAX_MD_SIZE` bytes. It then is a string of two hexadecimal digits for each
byte, which no SQL literal is closed by, and the digest can be read from it. -/
theorem renderHash_iff (md : List Byte) :
    ((renderHash md).isSome ↔ md.length ≤ evpMaxMdSize / 2) ∧
      ∀ hash, renderHash md = some hash → (cstr hash).length = 2 * md.length ∧
        (∀ c ∈ cstr hash, c ∈ hexDigits) ∧ readHash (cstr hash) = some md := by
  by_cases h : md.length ≤ 32
  · refine ⟨iff_of_true (by rw [renderHash_eq h]; rfl) h, fun hash hhash => ?_⟩
    have htext := cstr_renderHash h
    rw [hhash] at htext
    rw [Option.some.inj htext]
    exact ⟨length_hexText md, fun c => mem_hexText, readHash_hexText md⟩
  · have hnone := renderHash_none (Nat.lt_of_not_le h)
    exact ⟨iff_of_false (by rw [hnone]; nofun) h, by rw [hnone]; nofun⟩

/-! ## As the server's hash -/

/-- `__compute_hash`, with OpenSSL's digest of a key. -/
def hashOf (digest : Str → List Byte) (key : Str) : Str := ((renderHash (digest key)).map cstr).getD []

variable {digest : Str → List Byte}

/-- It is what `Sys` takes for a hash. -/
theorem hashOf_hex (hlen : ∀ key, (digest key).length ≤ 32) (key : Str) :
    ∀ c ∈ hashOf digest key, c ∈ hexDigits := by
  rw [hashOf, cstr_renderHash (hlen key)]
  exact fun c => mem_hexText

/-- Two keys have one hash when they have one digest. -/
theorem hashOf_eq_iff (hlen : ∀ key, (digest key).length ≤ 32) {key key' : Str} :
    hashOf digest key = hashOf digest key' ↔ digest key = digest key' := by
  rw [hashOf, hashOf, cstr_renderHash (hlen key), cstr_renderHash (hlen key')]
  exact ⟨fun h => hexText_injective h, fun h => congrArg hexText h⟩

end Thor
