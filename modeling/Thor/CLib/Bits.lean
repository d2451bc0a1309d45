import Thor.CLib.Bytes
import Mathlib.Data.List.GetD
import Mathlib.Data.Nat.Bitwise
import Mathlib.Tactic.Ring

/-!
# Bits, most significant first

- `toBits n v`: the `n` low bits of a number, the most significant first; `ofBits` reads
  them back.
- `bitsOf`: the bits of a list of bytes.
- `Written n b bs`: the first `n` bytes hold the bits `bs`, and zeros behind them. This is the
  invariant of a writer that ORs one bit after the other into cleared bytes.
- `written_or`: its step.
-/

namespace CLib

/-- The `n` low bits of a number, the most significant first. -/
def toBits : Nat → Nat → List Bool
  | 0, _ => []
  | n + 1, v => v.testBit n :: toBits n v

/-- The number that some bits stand for. -/
def ofBits (bs : List Bool) : Nat := bs.foldl (fun v b => 2 * v + b.toNat) 0

@[simp] theorem toBits_zero (v : Nat) : toBits 0 v = [] := rfl

theorem toBits_succ (n v : Nat) : toBits (n + 1) v = v.testBit n :: toBits n v := rfl

@[simp] theorem length_toBits (n v : Nat) : (toBits n v).length = n := by
  induction n with
  | zero => rfl
  | succ n ih => rw [toBits_succ, List.length_cons, ih]

theorem getElem?_toBits (n v i : Nat) :
    (toBits n v)[i]? = if i < n then some (v.testBit (n - 1 - i)) else none := by
  induction n generalizing i with
  | zero => simp
  | succ n ih =>
    rw [toBits_succ]
    cases i with
    | zero => simp
    | succ i =>
      rw [List.getElem?_cons_succ, ih]
      by_cases h : i < n
      · rw [if_pos h, if_pos (by omega), show n + 1 - 1 - (i + 1) = n - 1 - i by omega]
      · rw [if_neg h, if_neg (by omega)]

theorem foldl_ofBits (bs : List Bool) (v : Nat) :
    bs.foldl (fun v b => 2 * v + b.toNat) v = v * 2 ^ bs.length + ofBits bs := by
  induction bs generalizing v with
  | nil => simp [ofBits]
  | cons b bs ih =>
    rw [ofBits, List.foldl_cons, List.foldl_cons, ih, ih, List.length_cons, Nat.pow_succ]
    ring

theorem ofBits_cons (b : Bool) (bs : List Bool) :
    ofBits (b :: bs) = b.toNat * 2 ^ bs.length + ofBits bs := by
  rw [ofBits, List.foldl_cons, foldl_ofBits]
  simp

theorem ofBits_append (bs cs : List Bool) :
    ofBits (bs ++ cs) = ofBits bs * 2 ^ cs.length + ofBits cs := by
  rw [ofBits, List.foldl_append, foldl_ofBits cs]
  rfl

/-- What is written is read back, up to the width. -/
theorem ofBits_toBits (n v : Nat) : ofBits (toBits n v) = v % 2 ^ n := by
  induction n with
  | zero => simp [ofBits, Nat.mod_one]
  | succ n ih =>
    rw [toBits_succ, ofBits_cons, length_toBits, ih, Nat.testBit_eq_decide_div_mod_eq]
    have hmod := Nat.mod_pow_succ (x := v) (b := 2) (k := n)
    rw [hmod]
    rcases Nat.mod_two_eq_zero_or_one (v / 2 ^ n) with h | h
    · simp [h]
    · simp [h, Nat.add_comm]

theorem ofBits_toBits_of_lt {n v : Nat} (h : v < 2 ^ n) : ofBits (toBits n v) = v := by
  rw [ofBits_toBits, Nat.mod_eq_of_lt h]

theorem toBits_of_zero (n : Nat) : toBits n 0 = List.replicate n false := by
  induction n with
  | zero => rfl
  | succ n ih => rw [toBits_succ, ih, List.replicate_succ, Nat.zero_testBit]

/-! ## The bits of bytes -/

/-- The bits of some bytes, one byte after the other. -/
def bitsOf (l : List Byte) : List Bool := l.flatMap fun b => toBits 8 b.toNat

theorem bitsOf_cons (b : Byte) (l : List Byte) : bitsOf (b :: l) = toBits 8 b.toNat ++ bitsOf l :=
  List.flatMap_cons

@[simp] theorem length_bitsOf (l : List Byte) : (bitsOf l).length = 8 * l.length := by
  induction l with
  | nil => rfl
  | cons b l ih =>
    rw [bitsOf_cons, List.length_append, length_toBits, ih, List.length_cons]
    omega

theorem getElem?_bitsOf (l : List Byte) (k : Nat) :
    (bitsOf l)[k]? = (l[k / 8]?).map fun b => b.getLsbD (7 - k % 8) := by
  induction l generalizing k with
  | nil => simp [bitsOf]
  | cons b l ih =>
    rw [bitsOf_cons]
    by_cases hk : k < 8
    · rw [List.getElem?_append_left (by simpa using hk), getElem?_toBits, if_pos hk,
        Nat.div_eq_of_lt hk, Nat.mod_eq_of_lt hk, show 8 - 1 - k = 7 - k by omega]
      rfl
    · rw [List.getElem?_append_right (by simpa using hk), length_toBits, ih,
        show (k - 8) / 8 = k / 8 - 1 by omega, show (k - 8) % 8 = k % 8 by omega]
      obtain ⟨i, hi⟩ : ∃ i, k / 8 = i + 1 := ⟨k / 8 - 1, by omega⟩
      rw [hi, Nat.add_sub_cancel, List.getElem?_cons_succ]

/-- Bytes are known by their bits. -/
theorem bitsOf_injective {l l' : List Byte} (h : bitsOf l = bitsOf l') : l = l' := by
  have hlen : l.length = l'.length := by
    have := congrArg List.length h
    rw [length_bitsOf, length_bitsOf] at this
    omega
  refine List.ext_getElem hlen fun i hi hi' => BitVec.eq_of_getLsbD_eq fun j hj => ?_
  have hk := congrArg (fun bs => bs[8 * i + (7 - j)]?) h
  rw [getElem?_bitsOf, getElem?_bitsOf, show (8 * i + (7 - j)) / 8 = i by omega,
    show 7 - (8 * i + (7 - j)) % 8 = j by omega, List.getElem?_eq_getElem hi,
    List.getElem?_eq_getElem hi'] at hk
  simpa using hk

/-- The bits at the start of an array are those of its bytes. -/
theorem map_bitAt_eq (b : Bytes) (n : Nat) :
    (List.range (n * 8)).map (bitAt b) = bitsOf ((List.range n).map (octetAt b)) := by
  refine List.ext_getElem? fun k => ?_
  rw [getElem?_bitsOf, List.getElem?_map, List.getElem?_map]
  by_cases hk : k < n * 8
  · rw [List.getElem?_range hk, List.getElem?_range (by omega)]
    rfl
  · rw [List.getElem?_eq_none (by simpa using hk), List.getElem?_eq_none (by simp; omega)]
    rfl

/-! ## A writer of bits -/

/-- The first `n` bytes of the array hold the bits from their start, and zeros behind them. -/
def Written (n : Nat) (b : Bytes) (bs : List Bool) : Prop :=
  n ≤ b.size ∧ ∀ k < 8 * n, bitAt b k = bs.getD k false

/-- Nothing is written in a cleared array. -/
theorem written_nil {n : Nat} {b : Bytes} (hn : n ≤ b.size) (h : ∀ i < n, octetAt b i = 0) :
    Written n b [] := by
  refine ⟨hn, fun k hk => ?_⟩
  rw [bitAt, h (k / 8) (by omega)]
  simp

/-- What `memset` clears. -/
theorem written_memset {n : Nat} {b : Bytes} (hn : n ≤ b.size) :
    Gives (memset b 0 n) fun b' => Written n b' [] ∧ b'.size = b.size := by
  rw [memset_eq _ hn]
  refine gives_some ⟨written_nil (by simpa using hn) fun i hi => ?_, by simp⟩
  rw [octetAt_memset _ hn, if_pos hi]

theorem getD_concat (bs : List Bool) (c : Bool) (k : Nat) :
    (bs ++ [c]).getD k false = if k = bs.length then c else bs.getD k false := by
  rcases Nat.lt_trichotomy k bs.length with h | rfl | h
  · rw [List.getD_append _ _ _ _ h, if_neg (Nat.ne_of_lt h)]
  · rw [List.getD_append_right _ _ _ _ (Nat.le_refl _), Nat.sub_self, if_pos rfl]
    rfl
  · rw [List.getD_eq_default _ _ (by rw [List.length_append, List.length_singleton]; omega),
      if_neg (by omega), List.getD_eq_default _ _ (by omega)]

/-- The step of the writer: the next bit is ORed into its byte. -/
theorem written_or {n : Nat} {b : Bytes} {bs : List Bool} (h : Written n b bs) (c : Bool)
    (hroom : bs.length < 8 * n) :
    Written n (b.setIfInBounds (bs.length / 8)
      (octetAt b (bs.length / 8) ||| BitVec.ofNat 8 (c.toNat <<< (7 - bs.length % 8))))
      (bs ++ [c]) := by
  obtain ⟨hn, h⟩ := h
  refine ⟨by rwa [Array.size_setIfInBounds], fun k hk => ?_⟩
  have hbyte : bs.length / 8 < b.size := by omega
  have hk := h k hk
  rw [bitAt] at hk
  rw [bitAt, octetAt_set _ hbyte, getD_concat]
  by_cases hsame : bs.length / 8 = k / 8
  · -- the byte written to: one bit of it is new
    rw [if_pos hsame, BitVec.getLsbD_or, getLsbD_single c (by omega), hsame, hk]
    by_cases hlen : k = bs.length
    · subst hlen
      simp
    · have hbit : ¬ 7 - k % 8 = 7 - bs.length % 8 := by omega
      simp [hbit, hlen]
  · rw [if_neg hsame, hk, if_neg (by rintro rfl; exact hsame rfl)]

/-- What was written is what the bytes read as. -/
theorem Written.bitsOf_eq {n m : Nat} {b : Bytes} {bs : List Bool} (h : Written n b bs)
    (hlen : bs.length = 8 * m) (hm : m ≤ n) : bitsOf ((List.range m).map (octetAt b)) = bs := by
  refine List.ext_getElem? fun k => ?_
  rw [getElem?_bitsOf, List.getElem?_map]
  by_cases hlt : k < bs.length
  · have hk := h.2 k (by omega)
    rw [bitAt] at hk
    rw [List.getElem?_range (by omega), List.getElem?_eq_getElem hlt]
    simp only [Option.map_some, hk, List.getD_eq_getElem _ _ hlt]
  · rw [List.getElem?_eq_none (by simpa using by omega), List.getElem?_eq_none (by omega)]
    rfl

/-- Each bit is read where it was written. -/
theorem Written.bitAt_eq {n : Nat} {b : Bytes} {bs : List Bool} (h : Written n b bs)
    {k : Nat} (hk : k < bs.length) (hn : bs.length ≤ 8 * n) : bitAt b k = bs[k] := by
  rw [h.2 k (by omega), List.getD_eq_getElem _ _ hk]

/-- Bits that were written, read again. -/
theorem Written.map_bitAt {n : Nat} {b : Bytes} {bs : List Bool} (h : Written n b bs)
    (hlen : bs.length ≤ 8 * n) : (List.range bs.length).map (bitAt b) = bs := by
  refine List.ext_getElem (by simp) fun i _ hi => ?_
  rw [List.getElem_map, List.getElem_range, h.bitAt_eq hi hlen]

end CLib
