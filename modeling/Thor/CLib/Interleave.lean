import Mathlib.Algebra.Order.Group.Nat
import Mathlib.Tactic.Ring

/-!
# Interleaved blocks

Entries cut into blocks, the first ones of one length and the others longer by one, and sent
column by column: the first entry of each block, then the second of each, and so on. The last
column has entries of the longer blocks only.

- `Blocks`: how many blocks, and how long.
- `offset`, `size`: where a block stands in the entries before they are interleaved.
- `place`: where an entry goes. `place_lt`, `place_inj`, `place_surj`: to every place one entry.
- `sentBefore`: the number of the entries sent before one, for blocks of any sizes.
  `sentBefore_sizes`: it is the place of the entry.
-/

namespace CLib

/-- `count` blocks, the first `short` of them of `len` entries, the others of one more. -/
structure Blocks where
  count : Nat
  short : Nat
  len : Nat
  short_le : short ≤ count

namespace Blocks

variable (B : Blocks)

/-- The number of entries in a block. -/
def size (i : Nat) : Nat := B.len + if i < B.short then 0 else 1

/-- The number of entries in the blocks before a block. -/
def offset (i : Nat) : Nat := i * B.len + (i - B.short)

/-- The number of entries in all blocks. -/
def total : Nat := B.len * B.count + (B.count - B.short)

/-- The place of an entry when the columns follow each other. -/
def place (i j : Nat) : Nat :=
  if j = B.len then j * B.count + i - B.short else j * B.count + i

@[simp] theorem offset_zero : B.offset 0 = 0 := by simp [offset]

theorem offset_succ (i : Nat) : B.offset (i + 1) = B.offset i + B.size i := by
  rw [offset, offset, size, Nat.succ_mul]
  split <;> omega

theorem offset_count : B.offset B.count = B.total := by
  rw [offset, total, Nat.mul_comm]

theorem offset_mono {i i' : Nat} (h : i ≤ i') : B.offset i ≤ B.offset i' := by
  rw [offset, offset]
  have hmul : i * B.len ≤ i' * B.len := Nat.mul_le_mul_right _ h
  omega

/-- A block ends within the entries. -/
theorem offset_add_size_le {i : Nat} (h : i < B.count) : B.offset i + B.size i ≤ B.total := by
  rw [← offset_succ, ← offset_count]
  exact B.offset_mono h

variable {B}

/-- An entry is in a full column, or in the last one, which has the longer blocks only. -/
theorem lt_size_iff {i j : Nat} : j < B.size i ↔ j < B.len ∨ (j = B.len ∧ B.short ≤ i) := by
  rw [size]
  split <;> omega

theorem place_of_lt {i j : Nat} (h : j < B.len) : B.place i j = j * B.count + i := by
  rw [place, if_neg (Nat.ne_of_lt h)]

theorem place_last (i : Nat) : B.place i B.len = B.len * B.count + i - B.short := by
  rw [place, if_pos rfl]

theorem place_of_lt_lt {i j : Nat} (hi : i < B.count) (h : j < B.len) :
    B.place i j < B.len * B.count := by
  rw [place_of_lt h]
  have hmul : (j + 1) * B.count ≤ B.len * B.count := Nat.mul_le_mul_right _ h
  rw [Nat.succ_mul] at hmul
  omega

theorem place_lt {i j : Nat} (hi : i < B.count) (hj : j < B.size i) : B.place i j < B.total := by
  rw [total]
  rcases lt_size_iff.1 hj with h | ⟨rfl, h⟩
  · exact Nat.lt_of_lt_of_le (place_of_lt_lt hi h) (Nat.le_add_right _ _)
  · rw [place_last]
    omega

/-- No two entries go to one place. -/
theorem place_inj {i j i' j' : Nat} (hi : i < B.count) (hi' : i' < B.count) (hj : j < B.size i)
    (hj' : j' < B.size i') (h : B.place i j = B.place i' j') : i = i' ∧ j = j' := by
  rcases lt_size_iff.1 hj with h1 | ⟨rfl, h1⟩ <;> rcases lt_size_iff.1 hj' with h2 | ⟨rfl, h2⟩
  · -- both in full columns: quotient and remainder
    rw [place_of_lt h1, place_of_lt h2, Nat.add_comm, Nat.add_comm (j' * _)] at h
    have hmod := congrArg (· % B.count) h
    have hdiv := congrArg (· / B.count) h
    have hpos : 0 < B.count := by omega
    simp only [Nat.add_mul_mod_self_right, Nat.mod_eq_of_lt hi, Nat.mod_eq_of_lt hi'] at hmod
    simp only [Nat.add_mul_div_right _ _ hpos, Nat.div_eq_of_lt hi, Nat.div_eq_of_lt hi',
      Nat.zero_add] at hdiv
    exact ⟨hmod, hdiv⟩
  · have hlt := place_of_lt_lt hi h1
    rw [h, place_last] at hlt
    omega
  · have hlt := place_of_lt_lt hi' h2
    rw [← h, place_last] at hlt
    omega
  · rw [place_last, place_last] at h
    exact ⟨by omega, rfl⟩

/-- Every place has an entry. -/
theorem place_surj {k : Nat} (hk : k < B.total) :
    ∃ i < B.count, ∃ j < B.size i, B.place i j = k := by
  rw [total] at hk
  by_cases hfull : k < B.len * B.count
  · have hpos : 0 < B.count := Nat.pos_of_ne_zero fun h0 => by simp [h0] at hfull
    have hj : k / B.count < B.len := by
      rwa [Nat.div_lt_iff_lt_mul hpos]
    refine ⟨k % B.count, Nat.mod_lt k hpos, k / B.count, lt_size_iff.2 (.inl hj), ?_⟩
    rw [place_of_lt hj, Nat.mul_comm, Nat.div_add_mod]
  · -- the last column
    refine ⟨k - B.len * B.count + B.short, by omega, B.len, lt_size_iff.2 (.inr ⟨rfl, ?_⟩), ?_⟩
    · omega
    · rw [place_last]
      omega

end Blocks

/-! ## Blocks of any sizes -/

/-- The entries in the columns before a column. -/
def sentColumns (sizes : List Nat) : Nat → Nat
  | 0 => 0
  | j + 1 => sentColumns sizes j + sizes.countP (j < ·)

/-- The entries sent before entry `j` of block `i`: those of the columns before its own, and in
its own those of the blocks before. A block that is too short has none in a column. -/
def sentBefore (sizes : List Nat) (i j : Nat) : Nat :=
  sentColumns sizes j + (sizes.take i).countP (j < ·)

example : (List.range 3).map (sentBefore [2, 2, 3] 2) = [2, 5, 6] := by decide

namespace Blocks

/-- The sizes of the blocks. -/
def sizes (B : Blocks) : List Nat :=
  List.replicate B.short B.len ++ List.replicate (B.count - B.short) (B.len + 1)

variable {B : Blocks}

theorem getElem?_sizes {i : Nat} (h : i < B.count) : B.sizes[i]? = some (B.size i) := by
  have hle := B.short_le
  rw [sizes, size]
  by_cases hi : i < B.short
  · rw [List.getElem?_append_left (by simpa using hi), List.getElem?_replicate, if_pos hi, if_pos hi]
    rfl
  · rw [List.getElem?_append_right (by simpa using hi), List.getElem?_replicate,
      List.length_replicate, if_pos (by omega), if_neg hi]

/-- The full columns have an entry of every block. -/
theorem sentColumns_sizes : ∀ {j : Nat}, j ≤ B.len → sentColumns B.sizes j = j * B.count
  | 0, _ => (Nat.zero_mul _).symm
  | j + 1, h => by
    have hle := B.short_le
    have hlt : j < B.len := h
    rw [sentColumns, sentColumns_sizes (Nat.le_of_succ_le h), sizes, List.countP_append,
      List.countP_replicate, List.countP_replicate, if_pos (decide_eq_true hlt),
      if_pos (decide_eq_true (Nat.lt_succ_of_lt hlt)), Nat.succ_mul]
    omega

theorem sentBefore_sizes {i j : Nat} (hi : i < B.count) (hj : j < B.size i) :
    sentBefore B.sizes i j = B.place i j := by
  have hle := B.short_le
  rw [sentBefore, sizes, List.take_append, List.take_replicate, List.take_replicate,
    List.length_replicate, List.countP_append, List.countP_replicate, List.countP_replicate, ← sizes]
  rcases lt_size_iff.1 hj with h | ⟨rfl, h⟩
  · rw [sentColumns_sizes (Nat.le_of_lt h), place_of_lt h, if_pos (decide_eq_true h),
      if_pos (decide_eq_true (Nat.lt_succ_of_lt h))]
    omega
  · -- the last column has the longer blocks only
    rw [sentColumns_sizes (Nat.le_refl _), place_last, if_neg (by simp), if_pos (by simp)]
    omega

end Blocks

end CLib
