import Thor.Qr.Codewords
import Mathlib.GroupTheory.OrderOfElement
import Mathlib.Tactic.LinearCombination

/-!
# The field of the error correction code (ui/qr_generator.c)

`reedSolomonMultiply` is multiplication of polynomials over the integers modulo two, one bit
for a coefficient, reduced by `0x11D`: the multiplication of the field in `Qr.Codewords`.

- `toPoly_multiply`: the polynomial of a product.
- `GF`: the bytes as a commutative ring, with the multiplication of the source.
- `GF.orderOf_two`, `GF.exists_two_pow`: two generates the bytes that are not zero, and so the
  ring has no zero divisors.
-/

namespace Thor

open CLib Qr Polynomial

/-- The loop counts down from the highest bit of `y`; the assignments to `z` cut to a byte. -/
def reedSolomonMultiply (x y : Byte) : Byte :=
  [7, 6, 5, 4, 3, 2, 1, 0].foldl (fun z i =>
    let z : Byte := BitVec.ofNat 8 ((z.toNat <<< 1) ^^^ ((z.toNat >>> 7) * 0x11D))
    z ^^^ BitVec.ofNat 8 (((y.toNat >>> i) &&& 1) * x.toNat)) 0

/-! ## Multiplication -/

/-- The first assignment of a round. -/
def shiftReduce (z : Byte) : Byte :=
  BitVec.ofNat 8 ((z.toNat <<< 1) ^^^ ((z.toNat >>> 7) * 0x11D))

theorem coeffOf_shiftReduce (z : Byte) :
    coeffOf (shiftReduce z) 0 = coeffOf z 7 ∧ coeffOf (shiftReduce z) 1 = coeffOf z 0 ∧
      coeffOf (shiftReduce z) 2 = coeffOf z 1 + coeffOf z 7 ∧
      coeffOf (shiftReduce z) 3 = coeffOf z 2 + coeffOf z 7 ∧
      coeffOf (shiftReduce z) 4 = coeffOf z 3 + coeffOf z 7 ∧
      coeffOf (shiftReduce z) 5 = coeffOf z 4 ∧ coeffOf (shiftReduce z) 6 = coeffOf z 5 ∧
      coeffOf (shiftReduce z) 7 = coeffOf z 6 := by
  revert z
  decide

/-- A round shifts up, and takes the modulus off when there is a carry. -/
theorem toPoly_shiftReduce (z : Byte) :
    toPoly (shiftReduce z) = X * toPoly z + C (coeffOf z 7) * modulus := by
  have htwo : (2 : (ZMod 2)[X]) = 0 := CharTwo.two_eq_zero
  obtain ⟨h0, h1, h2, h3, h4, h5, h6, h7⟩ := coeffOf_shiftReduce z
  simp only [toPoly, modulus, Finset.sum_range_succ, Finset.sum_range_zero, h0, h1, h2, h3, h4, h5,
    h6, h7, C_add]
  linear_combination (-C (coeffOf z 7) * X ^ 8) * htwo

/-- The second assignment of a round adds a multiple of `x`. -/
theorem toPoly_bit_mul (x y : Byte) (i : Nat) :
    toPoly (BitVec.ofNat 8 (((y.toNat >>> i) &&& 1) * x.toNat)) = C (coeffOf y i) * toPoly x := by
  have hbit : ((y.toNat >>> i) &&& 1) = (y.getLsbD i).toNat := by
    rw [Nat.and_one_is_mod, BitVec.getLsbD, Nat.toNat_testBit, Nat.shiftRight_eq_div_pow]
  rw [hbit, coeffOf]
  cases y.getLsbD i with
  | false => simp
  | true => simp

theorem residue_round (x y z : Byte) (i : Nat) :
    residue (shiftReduce z ^^^ BitVec.ofNat 8 (((y.toNat >>> i) &&& 1) * x.toNat)) =
      AdjoinRoot.root modulus * residue z +
        AdjoinRoot.mk modulus (C (coeffOf y i)) * residue x := by
  rw [residue, toPoly_xor, toPoly_shiftReduce, toPoly_bit_mul, map_add, map_add, map_mul, map_mul,
    map_mul, AdjoinRoot.mk_self, mul_zero, add_zero, AdjoinRoot.mk_X]
  rfl

/-- The rounds are Horner's scheme for `y`, in the ring of remainders. -/
theorem residue_multiply (x y : Byte) :
    residue (reedSolomonMultiply x y) = residue x * residue y := by
  have hround : ∀ z i, residue ((fun z i =>
      (BitVec.ofNat 8 ((z.toNat <<< 1) ^^^ ((z.toNat >>> 7) * 0x11D)) : Byte) ^^^
        BitVec.ofNat 8 (((y.toNat >>> i) &&& 1) * x.toNat)) z i) =
      AdjoinRoot.root modulus * residue z +
        AdjoinRoot.mk modulus (C (coeffOf y i)) * residue x := residue_round x y
  have hy : residue y = ∑ i ∈ Finset.range 8,
      AdjoinRoot.mk modulus (C (coeffOf y i)) * AdjoinRoot.root modulus ^ i := by
    simp only [residue, toPoly, map_sum, map_mul, map_pow, AdjoinRoot.mk_X]
  have hzero : residue 0 = 0 := by
    show AdjoinRoot.mk modulus (toPoly 0#8) = 0
    rw [toPoly_zero, map_zero]
  rw [hy, reedSolomonMultiply]
  simp only [List.foldl_cons, List.foldl_nil, hround, hzero, Finset.sum_range_succ,
    Finset.sum_range_zero]
  ring

/-- **The multiplication of the source is that of polynomials modulo two, reduced by `0x11D`.** -/
theorem toPoly_multiply (x y : Byte) :
    toPoly (reedSolomonMultiply x y) = (toPoly x * toPoly y) %ₘ modulus := by
  have hdvd : modulus ∣ toPoly x * toPoly y - toPoly (reedSolomonMultiply x y) := by
    rw [← AdjoinRoot.mk_eq_mk, map_mul]
    exact (residue_multiply x y).symm
  obtain ⟨q, hq⟩ := hdvd
  refine (div_modByMonic_unique q _ modulus_monic ⟨?_, ?_⟩).2.symm
  · rw [← hq]
    ring
  · rw [degree_modulus]
    exact degree_toPoly_lt _

/-! ## The bytes as a ring -/

/-- An element of the field of the code. -/
@[ext] structure GF where
  byte : Byte
  deriving DecidableEq

namespace GF

instance : Zero GF := ⟨⟨0⟩⟩
instance : One GF := ⟨⟨1⟩⟩
instance : Add GF := ⟨fun a b => ⟨a.byte ^^^ b.byte⟩⟩
instance : Neg GF := ⟨id⟩
instance : Mul GF := ⟨fun a b => ⟨reedSolomonMultiply a.byte b.byte⟩⟩

/-- An element as a remainder; the laws of the ring are those of the remainders. -/
noncomputable def residue (a : GF) : AdjoinRoot modulus := Qr.residue a.byte

theorem residue_injective : Function.Injective residue := fun _ _ h =>
  GF.ext (Qr.residue_injective h)

theorem residue_zero : residue 0 = 0 := by
  show AdjoinRoot.mk modulus (toPoly 0#8) = 0
  rw [toPoly_zero, map_zero]

theorem residue_one : residue 1 = 1 := by
  have hone : toPoly 1#8 = 1 := by
    rw [toPoly, Finset.sum_range_succ']
    have hrest : ∀ i ∈ Finset.range 7, C (coeffOf 1#8 (i + 1)) * X ^ (i + 1) = 0 := by
      intro i hi
      rw [Finset.mem_range] at hi
      have hbit : coeffOf 1#8 (i + 1) = 0 := by
        interval_cases i <;> decide
      rw [hbit, C_0, zero_mul]
    rw [Finset.sum_eq_zero hrest, show coeffOf 1#8 0 = 1 by decide, C_1, pow_zero, zero_add, one_mul]
  show AdjoinRoot.mk modulus (toPoly 1#8) = 1
  rw [hone, map_one]

theorem residue_add (a b : GF) : residue (a + b) = residue a + residue b := by
  show AdjoinRoot.mk modulus (toPoly (a.byte ^^^ b.byte)) = _
  rw [toPoly_xor, map_add]
  rfl

theorem residue_mul (a b : GF) : residue (a * b) = residue a * residue b :=
  residue_multiply a.byte b.byte

theorem add_self (a : GF) : a + a = 0 := GF.ext (BitVec.xor_self)

instance : CommRing GF where
  add_assoc a b c := residue_injective (by simp only [residue_add, add_assoc])
  zero_add a := residue_injective (by rw [residue_add, residue_zero, zero_add])
  add_zero a := residue_injective (by rw [residue_add, residue_zero, add_zero])
  add_comm a b := residue_injective (by rw [residue_add, residue_add, add_comm])
  neg_add_cancel a := add_self a
  mul_assoc a b c := residue_injective (by simp only [residue_mul, mul_assoc])
  one_mul a := residue_injective (by rw [residue_mul, residue_one, one_mul])
  mul_one a := residue_injective (by rw [residue_mul, residue_one, mul_one])
  mul_comm a b := residue_injective (by rw [residue_mul, residue_mul, mul_comm])
  left_distrib a b c := residue_injective (by simp only [residue_mul, residue_add, mul_add])
  right_distrib a b c := residue_injective (by simp only [residue_mul, residue_add, add_mul])
  zero_mul a := residue_injective (by rw [residue_mul, residue_zero, zero_mul])
  mul_zero a := residue_injective (by rw [residue_mul, residue_zero, mul_zero])
  nsmul := nsmulRec
  zsmul := zsmulRec

/-- The ring of the source in the field of the standard. -/
noncomputable def residueHom : GF →+* AdjoinRoot modulus where
  toFun := residue
  map_one' := residue_one
  map_mul' := residue_mul
  map_zero' := residue_zero
  map_add' := residue_add

instance : Nontrivial GF := ⟨0, 1, by decide⟩

instance : CharP GF 2 := CharTwo.of_one_ne_zero_of_two_eq_zero one_ne_zero
  (by rw [← one_add_one_eq_two]; exact add_self 1)

/-- As many elements as bytes. -/
def equivFin : GF ≃ Fin 256 := ⟨fun a => a.byte.toFin, fun i => ⟨⟨i⟩⟩, fun _ => rfl, fun _ => rfl⟩

instance : Fintype GF := Fintype.ofEquiv (Fin 256) equivFin.symm

theorem card_eq : Fintype.card GF = 256 := by
  rw [Fintype.card_congr equivFin, Fintype.card_fin]

/-- The root that the source starts from. -/
def two : GF := ⟨2⟩

theorem residue_two : residue two = AdjoinRoot.root modulus := by
  have htwo : toPoly 2#8 = X := by
    refine Polynomial.ext fun n => ?_
    rw [coeff_toPoly, coeff_X]
    by_cases hn : n < 8
    · rw [if_pos hn]
      interval_cases n <;> decide
    · rw [if_neg hn, if_neg (by omega)]
  show AdjoinRoot.mk modulus (toPoly 2#8) = _
  rw [htwo, AdjoinRoot.mk_X]

theorem two_pow_card : two ^ 255 = 1 := by decide +kernel

/-- The order of two is that of the group: it is none of the proper divisors. -/
theorem orderOf_two : orderOf two = 255 := by
  refine orderOf_eq_of_pow_and_pow_div_prime (by decide) two_pow_card fun p hp hdvd => ?_
  have hfactors : p ∣ 3 * 5 * 17 := hdvd
  rcases (Nat.Prime.dvd_mul hp).1 hfactors with h | h
  · rcases (Nat.Prime.dvd_mul hp).1 h with h | h
    · rw [(Nat.prime_dvd_prime_iff_eq hp (by decide)).1 h]
      decide +kernel
    · rw [(Nat.prime_dvd_prime_iff_eq hp (by decide)).1 h]
      decide +kernel
  · rw [(Nat.prime_dvd_prime_iff_eq hp (by decide)).1 h]
    decide +kernel

theorem two_pow_ne_zero (n : Nat) : two ^ n ≠ 0 := by
  intro h
  have hone : (two ^ n) ^ 255 = 1 := by rw [pow_right_comm, two_pow_card, one_pow]
  rw [h, zero_pow (by decide)] at hone
  exact zero_ne_one hone

theorem two_pow_injOn {n : Nat} (hn : n ≤ 255) : Set.InjOn (fun k => two ^ k) {k | k < n} := by
  intro i hi j hj hij
  have hlt : ∀ k ∈ {k | k < n}, k ∈ Set.Iio (orderOf two) := by
    intro k hk
    rw [orderOf_two]
    exact Nat.lt_of_lt_of_le hk hn
  exact pow_injOn_Iio_orderOf (hlt i hi) (hlt j hj) hij

/-- Every element but zero is a power of two. -/
theorem exists_two_pow {a : GF} (ha : a ≠ 0) : ∃ k < 255, two ^ k = a := by
  have hsub : (Finset.range 255).image (fun k => two ^ k) ⊆ Finset.univ.erase 0 := by
    intro x hx
    obtain ⟨k, -, rfl⟩ := Finset.mem_image.1 hx
    exact Finset.mem_erase.2 ⟨two_pow_ne_zero k, Finset.mem_univ _⟩
  have hcard : ((Finset.range 255).image fun k => two ^ k).card = 255 := by
    rw [Finset.card_image_of_injOn, Finset.card_range]
    intro i hi j hj
    exact two_pow_injOn (Nat.le_refl 255) (Finset.mem_range.1 hi) (Finset.mem_range.1 hj)
  have hle : (Finset.univ.erase (0 : GF)).card ≤
      ((Finset.range 255).image fun k => two ^ k).card := by
    rw [hcard, Finset.card_erase_of_mem (Finset.mem_univ _), Finset.card_univ, card_eq]
  have heq := Finset.eq_of_subset_of_card_le hsub hle
  have hmem : a ∈ (Finset.range 255).image fun k => two ^ k := by
    rw [heq]
    exact Finset.mem_erase.2 ⟨ha, Finset.mem_univ _⟩
  obtain ⟨k, hk, rfl⟩ := Finset.mem_image.1 hmem
  exact ⟨k, Finset.mem_range.1 hk, rfl⟩

instance : NoZeroDivisors GF where
  eq_zero_or_eq_zero_of_mul_eq_zero := by
    intro a b hab
    by_contra hne
    obtain ⟨ha, hb⟩ := not_or.1 hne
    obtain ⟨i, -, rfl⟩ := exists_two_pow ha
    obtain ⟨j, -, rfl⟩ := exists_two_pow hb
    rw [← pow_add] at hab
    exact two_pow_ne_zero _ hab

instance : IsDomain GF := NoZeroDivisors.to_isDomain GF

end GF

end Thor
