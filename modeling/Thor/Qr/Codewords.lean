import Thor.CLib.Bytes
import Thor.CLib.Cyclic
import Thor.CLib.Interleave
import Thor.Qr.Symbols
import Mathlib.Algebra.CharP.Two
import Mathlib.Algebra.Field.ZMod
import Mathlib.RingTheory.AdjoinRoot

/-!
# The codewords of the standard

The codewords of a symbol are data in blocks, each with its check codewords behind it, and
sent interleaved. As in `Qr.Symbols`, nothing here is taken from an encoder.

- `toPoly`, `modulus`, `residue`: a byte as an element of the field of 256 elements.
- `IsCodeword`: a block with its check codewords vanishes at the first powers of the root.
- `layouts`: the blocks of every version at every level. `received`: a block, from where its
  codewords have been sent.
- `CorrectsTo`: what a reader makes of a block in which some codewords are wrong.
-/

namespace Qr

open CLib Polynomial

/-! ## The field -/

/-- A bit as a coefficient. -/
def coeffOf (x : Byte) (i : Nat) : ZMod 2 := if x.getLsbD i then 1 else 0

/-- A byte as a polynomial, the least significant bit for the constant coefficient. -/
noncomputable def toPoly (x : Byte) : (ZMod 2)[X] :=
  ∑ i ∈ Finset.range 8, C (coeffOf x i) * X ^ i

/-- The modulus of the field. -/
noncomputable def modulus : (ZMod 2)[X] := X ^ 8 + X ^ 4 + X ^ 3 + X ^ 2 + 1

theorem coeffOf_xor (x y : Byte) (i : Nat) : coeffOf (x ^^^ y) i = coeffOf x i + coeffOf y i := by
  rw [coeffOf, coeffOf, coeffOf, BitVec.getLsbD_xor]
  cases x.getLsbD i <;> cases y.getLsbD i <;> decide

theorem toPoly_xor (x y : Byte) : toPoly (x ^^^ y) = toPoly x + toPoly y := by
  rw [toPoly, toPoly, toPoly, ← Finset.sum_add_distrib]
  refine Finset.sum_congr rfl fun i _ => ?_
  rw [coeffOf_xor, C_add, add_mul]

@[simp] theorem toPoly_zero : toPoly 0#8 = 0 := by
  rw [toPoly]
  refine Finset.sum_eq_zero fun i _ => ?_
  simp [coeffOf]

theorem coeff_toPoly (x : Byte) (n : Nat) :
    (toPoly x).coeff n = if n < 8 then coeffOf x n else 0 := by
  rw [toPoly, finsetSum_coeff]
  simp [coeff_C_mul, coeff_X_pow]

theorem degree_toPoly_lt (x : Byte) : (toPoly x).degree < 8 := by
  refine (degree_lt_iff_coeff_zero (toPoly x) 8).2 fun n hn => ?_
  rw [coeff_toPoly, if_neg (Nat.not_lt.2 hn)]

theorem coeffOf_inj {x y : Byte} {i : Nat} (h : coeffOf x i = coeffOf y i) :
    x.getLsbD i = y.getLsbD i := by
  rw [coeffOf, coeffOf] at h
  revert h
  cases x.getLsbD i <;> cases y.getLsbD i <;> decide

/-- Different bytes are different polynomials. -/
theorem toPoly_injective : Function.Injective toPoly := by
  intro x y h
  have hcoeff : ∀ i, i < 8 → coeffOf x i = coeffOf y i := by
    intro i hi
    have hx := coeff_toPoly x i
    rw [h, coeff_toPoly, if_pos hi, if_pos hi] at hx
    exact hx.symm
  exact BitVec.eq_of_getLsbD_eq fun i hi => coeffOf_inj (hcoeff i hi)

theorem modulus_monic : modulus.Monic := by
  rw [modulus]
  monicity!

theorem degree_modulus : modulus.degree = 8 := by
  rw [modulus]
  compute_degree!

/-- A byte as an element of the field. -/
noncomputable def residue (x : Byte) : AdjoinRoot modulus := AdjoinRoot.mk modulus (toPoly x)

theorem residue_injective : Function.Injective residue := by
  intro x y h
  have hdvd : modulus ∣ toPoly x - toPoly y := AdjoinRoot.mk_eq_mk.1 h
  have hlt : (toPoly x - toPoly y).degree < modulus.degree := by
    rw [degree_modulus]
    exact (degree_sub_le _ _).trans_lt (max_lt (degree_toPoly_lt _) (degree_toPoly_lt _))
  exact toPoly_injective (sub_eq_zero.1 (eq_zero_of_dvd_of_degree_lt hdvd hlt))

/-- The words of the code with `check` check codewords. -/
def IsCodeword (check : Nat) (word : List Byte) : Prop :=
  ∀ j < check, horner (AdjoinRoot.root modulus ^ j) (word.map residue) = 0

/-! ## Blocks -/

/-- The blocks of a symbol: the number of check codewords in each of them, then the number of
blocks and of data codewords in each, and the same of the longer blocks behind those. -/
structure Layout where
  check : Nat
  short : Nat
  shortLen : Nat
  long : Nat
  longLen : Nat
  deriving DecidableEq

/-- The layouts of the versions, from version 1 on. -/
def layouts : Level → List Layout
  | .L =>
    [⟨7, 1, 19, 0, 0⟩, ⟨10, 1, 34, 0, 0⟩, ⟨15, 1, 55, 0, 0⟩, ⟨20, 1, 80, 0, 0⟩, ⟨26, 1, 108, 0, 0⟩,
      ⟨18, 2, 68, 0, 0⟩, ⟨20, 2, 78, 0, 0⟩, ⟨24, 2, 97, 0, 0⟩, ⟨30, 2, 116, 0, 0⟩,
      ⟨18, 2, 68, 2, 69⟩, ⟨20, 4, 81, 0, 0⟩, ⟨24, 2, 92, 2, 93⟩, ⟨26, 4, 107, 0, 0⟩,
      ⟨30, 3, 115, 1, 116⟩, ⟨22, 5, 87, 1, 88⟩, ⟨24, 5, 98, 1, 99⟩, ⟨28, 1, 107, 5, 108⟩,
      ⟨30, 5, 120, 1, 121⟩, ⟨28, 3, 113, 4, 114⟩, ⟨28, 3, 107, 5, 108⟩, ⟨28, 4, 116, 4, 117⟩,
      ⟨28, 2, 111, 7, 112⟩, ⟨30, 4, 121, 5, 122⟩, ⟨30, 6, 117, 4, 118⟩, ⟨26, 8, 106, 4, 107⟩,
      ⟨28, 10, 114, 2, 115⟩, ⟨30, 8, 122, 4, 123⟩, ⟨30, 3, 117, 10, 118⟩, ⟨30, 7, 116, 7, 117⟩,
      ⟨30, 5, 115, 10, 116⟩, ⟨30, 13, 115, 3, 116⟩, ⟨30, 17, 115, 0, 0⟩, ⟨30, 17, 115, 1, 116⟩,
      ⟨30, 13, 115, 6, 116⟩, ⟨30, 12, 121, 7, 122⟩, ⟨30, 6, 121, 14, 122⟩, ⟨30, 17, 122, 4, 123⟩,
      ⟨30, 4, 122, 18, 123⟩, ⟨30, 20, 117, 4, 118⟩, ⟨30, 19, 118, 6, 119⟩]
  | .M =>
    [⟨10, 1, 16, 0, 0⟩, ⟨16, 1, 28, 0, 0⟩, ⟨26, 1, 44, 0, 0⟩, ⟨18, 2, 32, 0, 0⟩, ⟨24, 2, 43, 0, 0⟩,
      ⟨16, 4, 27, 0, 0⟩, ⟨18, 4, 31, 0, 0⟩, ⟨22, 2, 38, 2, 39⟩, ⟨22, 3, 36, 2, 37⟩,
      ⟨26, 4, 43, 1, 44⟩, ⟨30, 1, 50, 4, 51⟩, ⟨22, 6, 36, 2, 37⟩, ⟨22, 8, 37, 1, 38⟩,
      ⟨24, 4, 40, 5, 41⟩, ⟨24, 5, 41, 5, 42⟩, ⟨28, 7, 45, 3, 46⟩, ⟨28, 10, 46, 1, 47⟩,
      ⟨26, 9, 43, 4, 44⟩, ⟨26, 3, 44, 11, 45⟩, ⟨26, 3, 41, 13, 42⟩, ⟨26, 17, 42, 0, 0⟩,
      ⟨28, 17, 46, 0, 0⟩, ⟨28, 4, 47, 14, 48⟩, ⟨28, 6, 45, 14, 46⟩, ⟨28, 8, 47, 13, 48⟩,
      ⟨28, 19, 46, 4, 47⟩, ⟨28, 22, 45, 3, 46⟩, ⟨28, 3, 45, 23, 46⟩, ⟨28, 21, 45, 7, 46⟩,
      ⟨28, 19, 47, 10, 48⟩, ⟨28, 2, 46, 29, 47⟩, ⟨28, 10, 46, 23, 47⟩, ⟨28, 14, 46, 21, 47⟩,
      ⟨28, 14, 46, 23, 47⟩, ⟨28, 12, 47, 26, 48⟩, ⟨28, 6, 47, 34, 48⟩, ⟨28, 29, 46, 14, 47⟩,
      ⟨28, 13, 46, 32, 47⟩, ⟨28, 40, 47, 7, 48⟩, ⟨28, 18, 47, 31, 48⟩]
  | .Q =>
    [⟨13, 1, 13, 0, 0⟩, ⟨22, 1, 22, 0, 0⟩, ⟨18, 2, 17, 0, 0⟩, ⟨26, 2, 24, 0, 0⟩,
      ⟨18, 2, 15, 2, 16⟩, ⟨24, 4, 19, 0, 0⟩, ⟨18, 2, 14, 4, 15⟩, ⟨22, 4, 18, 2, 19⟩,
      ⟨20, 4, 16, 4, 17⟩, ⟨24, 6, 19, 2, 20⟩, ⟨28, 4, 22, 4, 23⟩, ⟨26, 4, 20, 6, 21⟩,
      ⟨24, 8, 20, 4, 21⟩, ⟨20, 11, 16, 5, 17⟩, ⟨30, 5, 24, 7, 25⟩, ⟨24, 15, 19, 2, 20⟩,
      ⟨28, 1, 22, 15, 23⟩, ⟨28, 17, 22, 1, 23⟩, ⟨26, 17, 21, 4, 22⟩, ⟨30, 15, 24, 5, 25⟩,
      ⟨28, 17, 22, 6, 23⟩, ⟨30, 7, 24, 16, 25⟩, ⟨30, 11, 24, 14, 25⟩, ⟨30, 11, 24, 16, 25⟩,
      ⟨30, 7, 24, 22, 25⟩, ⟨28, 28, 22, 6, 23⟩, ⟨30, 8, 23, 26, 24⟩, ⟨30, 4, 24, 31, 25⟩,
      ⟨30, 1, 23, 37, 24⟩, ⟨30, 15, 24, 25, 25⟩, ⟨30, 42, 24, 1, 25⟩, ⟨30, 10, 24, 35, 25⟩,
      ⟨30, 29, 24, 19, 25⟩, ⟨30, 44, 24, 7, 25⟩, ⟨30, 39, 24, 14, 25⟩, ⟨30, 46, 24, 10, 25⟩,
      ⟨30, 49, 24, 10, 25⟩, ⟨30, 48, 24, 14, 25⟩, ⟨30, 43, 24, 22, 25⟩, ⟨30, 34, 24, 34, 25⟩]
  | .H =>
    [⟨17, 1, 9, 0, 0⟩, ⟨28, 1, 16, 0, 0⟩, ⟨22, 2, 13, 0, 0⟩, ⟨16, 4, 9, 0, 0⟩, ⟨22, 2, 11, 2, 12⟩,
      ⟨28, 4, 15, 0, 0⟩, ⟨26, 4, 13, 1, 14⟩, ⟨26, 4, 14, 2, 15⟩, ⟨24, 4, 12, 4, 13⟩,
      ⟨28, 6, 15, 2, 16⟩, ⟨24, 3, 12, 8, 13⟩, ⟨28, 7, 14, 4, 15⟩, ⟨22, 12, 11, 4, 12⟩,
      ⟨24, 11, 12, 5, 13⟩, ⟨24, 11, 12, 7, 13⟩, ⟨30, 3, 15, 13, 16⟩, ⟨28, 2, 14, 17, 15⟩,
      ⟨28, 2, 14, 19, 15⟩, ⟨26, 9, 13, 16, 14⟩, ⟨28, 15, 15, 10, 16⟩, ⟨30, 19, 16, 6, 17⟩,
      ⟨24, 34, 13, 0, 0⟩, ⟨30, 16, 15, 14, 16⟩, ⟨30, 30, 16, 2, 17⟩, ⟨30, 22, 15, 13, 16⟩,
      ⟨30, 33, 16, 4, 17⟩, ⟨30, 12, 15, 28, 16⟩, ⟨30, 11, 15, 31, 16⟩, ⟨30, 19, 15, 26, 16⟩,
      ⟨30, 23, 15, 25, 16⟩, ⟨30, 23, 15, 28, 16⟩, ⟨30, 19, 15, 35, 16⟩, ⟨30, 11, 15, 46, 16⟩,
      ⟨30, 59, 16, 1, 17⟩, ⟨30, 22, 15, 41, 16⟩, ⟨30, 2, 15, 64, 16⟩, ⟨30, 24, 15, 46, 16⟩,
      ⟨30, 42, 15, 32, 16⟩, ⟨30, 10, 15, 67, 16⟩, ⟨30, 20, 15, 61, 16⟩]

def layout (level : Level) (version : Nat) : Layout :=
  (layouts level).getD (version - 1) ⟨0, 0, 0, 0, 0⟩

namespace Layout

variable (b : Layout)

/-- The number of blocks. -/
def count : Nat := b.short + b.long

/-- The numbers of data codewords in the blocks. -/
def sizes : List Nat := List.replicate b.short b.shortLen ++ List.replicate b.long b.longLen

/-- Block `i` as it has been sent: the data codewords of all blocks are interleaved, and behind
them their check codewords. -/
def received (codewords : Nat → Byte) (i : Nat) : List Byte :=
  ((List.range (b.sizes.getD i 0)).map fun j => codewords (sentBefore b.sizes i j)) ++
    (List.range b.check).map fun j =>
      codewords (total b.sizes + sentBefore (List.replicate b.count b.check) i j)

/-- The data codewords `block` are those of a word of the code that differs from what was
received in no more codewords than the check codewords can correct. -/
def CorrectsTo (codewords : Nat → Byte) (i : Nat) (block : List Byte) : Prop :=
  block.length = b.sizes.getD i 0 ∧ ∃ check : List Byte, check.length = b.check ∧
    IsCodeword b.check (block ++ check) ∧
      distance (block ++ check) (b.received codewords i) ≤ b.check / 2

@[simp] theorem length_received (codewords : Nat → Byte) (i : Nat) :
    (b.received codewords i).length = b.sizes.getD i 0 + b.check := by
  simp [received]

end Layout

end Qr
