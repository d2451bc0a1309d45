import Thor.CLib.Loop
import Mathlib.Data.List.Nodup
import Mathlib.Logic.Function.Basic

/-!
# Arrays of bytes

`uint8_t` arrays, their bits in the two orders that packed data uses, and lists of writes.

- `Bytes`: an array of bytes; `load`, `store` and `memset` stop outside of it.
- `bitAt`: the bits of an array with the most significant bit of each byte first.
- `cellAt`: the bits behind the first byte with the least significant bit of each byte first.
- `Bytes.ext_cells`: an array is known by its first byte and its bits.
- `writeAll`: what a list of writes leaves of a function; the last write to a place counts.
-/

namespace CLib

/-- A `uint8_t`. -/
abbrev Byte := BitVec 8

/-- A `uint8_t` array. -/
abbrev Bytes := Array Byte

/-- `b[i]`, read. -/
def load (b : Bytes) (i : Nat) : Option Byte := b[i]?

/-- `b[i] = v`. -/
def store (b : Bytes) (i : Nat) (v : Byte) : Option Bytes :=
  if i < b.size then some (b.setIfInBounds i v) else none

/-- `memset(b, v, n)`. -/
def memset (b : Bytes) (v : Byte) (n : Nat) : Option Bytes :=
  if n ≤ b.size then some (b.mapIdx fun i x => if i < n then v else x) else none

/-- `memset(&b[off], v, n)`. -/
def memsetAt (b : Bytes) (off : Nat) (v : Byte) (n : Nat) : Option Bytes :=
  if off + n ≤ b.size then some (b.mapIdx fun i x => if off ≤ i ∧ i < off + n then v else x)
  else none

/-- The byte at a place, zero outside of the array. -/
def octetAt (b : Bytes) (i : Nat) : Byte := b.getD i 0

theorem load_eq {b : Bytes} {i : Nat} (h : i < b.size) : load b i = some (octetAt b i) := by
  simp [load, octetAt, h]

theorem store_eq {b : Bytes} {i : Nat} (v : Byte) (h : i < b.size) :
    store b i v = some (b.setIfInBounds i v) := by
  simp [store, h]

theorem load_bind {α : Type} {b : Bytes} {i : Nat} (h : i < b.size) (k : Byte → Option α) :
    (load b i >>= k) = k (octetAt b i) := by
  rw [load_eq h]
  rfl

theorem store_bind {α : Type} {b : Bytes} {i : Nat} (v : Byte) (h : i < b.size)
    (k : Bytes → Option α) : (store b i v >>= k) = k (b.setIfInBounds i v) := by
  rw [store_eq v h]
  rfl

theorem octetAt_of_size_le {b : Bytes} {i : Nat} (h : b.size ≤ i) : octetAt b i = 0 := by
  simp [octetAt, Nat.not_lt.2 h]

theorem octetAt_set {b : Bytes} {i : Nat} (v : Byte) (h : i < b.size) (j : Nat) :
    octetAt (b.setIfInBounds i v) j = if i = j then v else octetAt b j := by
  rw [octetAt, Array.getD_eq_getD_getElem?, Array.getElem?_setIfInBounds]
  split
  · simp
  · rw [octetAt, Array.getD_eq_getD_getElem?]

theorem memset_eq {b : Bytes} (v : Byte) {n : Nat} (h : n ≤ b.size) :
    memset b v n = some (b.mapIdx fun i x => if i < n then v else x) := by
  simp [memset, h]

/-- `memmove(&b[dst], &b[src], n)`. -/
def memmove (b : Bytes) (dst src n : Nat) : Option Bytes :=
  if dst + n ≤ b.size ∧ src + n ≤ b.size then
    some (b.mapIdx fun i x => if dst ≤ i ∧ i < dst + n then octetAt b (src + (i - dst)) else x)
  else none

/-- A write to the array is an update of its bytes. -/
theorem octetAt_set_eq {b : Bytes} {i : Nat} (v : Byte) (h : i < b.size) :
    octetAt (b.setIfInBounds i v) = Function.update (octetAt b) i v := by
  funext j
  rw [octetAt_set v h, Function.update_apply]
  simp only [eq_comm]

theorem octetAt_mapIdx (b : Bytes) (f : Nat → Byte → Byte) (j : Nat) :
    octetAt (b.mapIdx f) j = if j < b.size then f j (octetAt b j) else 0 := by
  rw [octetAt, Array.getD_eq_getD_getElem?, Array.getElem?_mapIdx]
  by_cases hj : j < b.size
  · simp [octetAt, hj]
  · simp [hj]

theorem octetAt_memset {b : Bytes} (v : Byte) {n : Nat} (h : n ≤ b.size) (j : Nat) :
    octetAt (b.mapIdx fun i x => if i < n then v else x) j =
      if j < n then v else octetAt b j := by
  rw [octetAt_mapIdx]
  by_cases hj : j < b.size
  · rw [if_pos hj]
  · rw [if_neg hj, if_neg (by omega), octetAt_of_size_le (by omega)]

theorem memsetAt_gives {b : Bytes} (v : Byte) {off n : Nat} (h : off + n ≤ b.size) :
    Gives (memsetAt b off v n) fun b' => b'.size = b.size ∧
      ∀ j, octetAt b' j = if off ≤ j ∧ j < off + n then v else octetAt b j := by
  rw [memsetAt, if_pos h]
  refine gives_some ⟨Array.size_mapIdx, fun j => ?_⟩
  rw [octetAt_mapIdx]
  by_cases hj : j < b.size
  · rw [if_pos hj]
  · rw [if_neg hj, if_neg (by omega), octetAt_of_size_le (by omega)]

theorem memmove_gives {b : Bytes} {dst src n : Nat} (h : dst + n ≤ b.size) (h' : src + n ≤ b.size) :
    Gives (memmove b dst src n) fun b' => b'.size = b.size ∧
      ∀ j, octetAt b' j = if dst ≤ j ∧ j < dst + n then octetAt b (src + (j - dst)) else octetAt b j := by
  rw [memmove, if_pos ⟨h, h'⟩]
  refine gives_some ⟨Array.size_mapIdx, fun j => ?_⟩
  rw [octetAt_mapIdx]
  by_cases hj : j < b.size
  · rw [if_pos hj]
  · rw [if_neg hj, if_neg (by omega), octetAt_of_size_le (by omega)]

/-- The bytes at places that follow each other. -/
def slice (b : Bytes) (off n : Nat) : List Byte := (List.range n).map fun i => octetAt b (off + i)

@[simp] theorem length_slice (b : Bytes) (off n : Nat) : (slice b off n).length = n := by
  rw [slice, List.length_map, List.length_range]

theorem getElem?_slice (b : Bytes) (off n i : Nat) :
    (slice b off n)[i]? = if i < n then some (octetAt b (off + i)) else none := by
  rw [slice, List.getElem?_map]
  by_cases h : i < n
  · rw [List.getElem?_range h, if_pos h]
    rfl
  · rw [List.getElem?_eq_none (by simpa using h), if_neg h]
    rfl

theorem slice_add (b : Bytes) (off n m : Nat) :
    slice b off (n + m) = slice b off n ++ slice b (off + n) m := by
  rw [slice, List.range_add, List.map_append, List.map_map, slice, slice]
  congr 1
  refine List.map_congr_left fun i _ => ?_
  rw [Function.comp_apply, Nat.add_assoc]

theorem slice_congr {b b' : Bytes} {off n : Nat}
    (h : ∀ i, off ≤ i → i < off + n → octetAt b i = octetAt b' i) : slice b off n = slice b' off n := by
  refine List.map_congr_left fun i hi => h (off + i) (Nat.le_add_right off i) ?_
  have := List.mem_range.1 hi
  omega

/-- Arrays of one size are equal when their bytes are. -/
theorem Bytes.ext_bytes {a b : Bytes} (hsize : a.size = b.size)
    (h : ∀ i < a.size, octetAt a i = octetAt b i) : a = b := by
  refine Array.ext hsize fun i ha hb => ?_
  have hi := h i ha
  simpa [octetAt, ha, hb] using hi

/-! ## Bits -/

/-- Bit `k` of an array, the most significant bit of each byte first. -/
def bitAt (b : Bytes) (k : Nat) : Bool := (octetAt b (k / 8)).getLsbD (7 - k % 8)

/-- Bit `k` behind the first byte of an array, the least significant bit of each byte first. -/
def cellAt (b : Bytes) (k : Nat) : Bool := (octetAt b (k / 8 + 1)).getLsbD (k % 8)

theorem Bytes.ext_cells {a b : Bytes} (hsize : a.size = b.size) (h0 : octetAt a 0 = octetAt b 0)
    (h : ∀ k, cellAt a k = cellAt b k) : a = b := by
  refine Bytes.ext_bytes hsize fun i _ => ?_
  cases i with
  | zero => exact h0
  | succ i =>
    refine BitVec.eq_of_getLsbD_eq fun j hj => ?_
    have hk := h (8 * i + j)
    have hdiv : (8 * i + j) / 8 = i := by omega
    have hmod : (8 * i + j) % 8 = j := by omega
    rwa [cellAt, cellAt, hdiv, hmod] at hk

/-- A byte with one bit set, or none. -/
theorem getLsbD_single (c : Bool) {j : Nat} (hj : j < 8) (m : Nat) :
    (BitVec.ofNat 8 (c.toNat <<< j)).getLsbD m = (decide (m = j) && c) := by
  rw [BitVec.getLsbD_ofNat, Nat.testBit_shiftLeft]
  cases c with
  | false => simp
  | true =>
    by_cases hm : m = j
    · subst hm
      simp [hj]
    · have hbit : Nat.testBit 1 (m - j) = true → m ≤ j := by
        intro h
        have := Nat.testBit_one_eq_true_iff_self_eq_zero.1 h
        omega
      by_cases hle : j ≤ m
      · have : ¬ Nat.testBit 1 (m - j) = true := fun h => hm (by have := hbit h; omega)
        simp [hm, this]
      · simp [hm, hle]

/-! ## Writes -/

section

variable {κ V : Type} [DecidableEq κ]

/-- The writes of a list, in its order. -/
def writeAll (f : κ → V) (ws : List (κ × V)) : κ → V :=
  ws.foldl (fun f w => Function.update f w.1 w.2) f

@[simp] theorem writeAll_nil (f : κ → V) : writeAll f [] = f := rfl

theorem writeAll_cons (f : κ → V) (w : κ × V) (ws : List (κ × V)) :
    writeAll f (w :: ws) = writeAll (Function.update f w.1 w.2) ws := rfl

theorem writeAll_append (f : κ → V) (ws ws' : List (κ × V)) :
    writeAll f (ws ++ ws') = writeAll (writeAll f ws) ws' :=
  List.foldl_append

/-- A place that no write names keeps its value. -/
theorem writeAll_of_notMem {f : κ → V} {ws : List (κ × V)} {k : κ} (h : ∀ w ∈ ws, w.1 ≠ k) :
    writeAll f ws k = f k := by
  induction ws generalizing f with
  | nil => rfl
  | cons w ws ih =>
    rw [writeAll_cons, ih fun w' hw' => h w' (List.mem_cons_of_mem w hw')]
    exact Function.update_of_ne (h w (List.mem_cons_self ..)).symm _ _

/-- A place has the value of a write to it, when all writes to it agree. -/
theorem writeAll_of_mem {f : κ → V} {ws : List (κ × V)} {k : κ} {v : V} (hmem : (k, v) ∈ ws)
    (hagree : ∀ w ∈ ws, w.1 = k → w.2 = v) : writeAll f ws k = v := by
  induction ws generalizing f with
  | nil => simp at hmem
  | cons w ws ih =>
    rw [writeAll_cons]
    have hagree' : ∀ w' ∈ ws, w'.1 = k → w'.2 = v :=
      fun w' hw' => hagree w' (List.mem_cons_of_mem w hw')
    by_cases hin : ∃ w' ∈ ws, w'.1 = k
    · obtain ⟨w', hw', hk⟩ := hin
      have hw'' : (k, v) ∈ ws := by
        rw [← hk, ← hagree' w' hw' hk]
        exact hw'
      exact ih hw'' hagree'
    · -- no later write to the place: this one counts
      have hnot : ∀ w' ∈ ws, w'.1 ≠ k := fun w' hw' hk => hin ⟨w', hw', hk⟩
      rw [writeAll_of_notMem hnot]
      rcases List.mem_cons.1 hmem with rfl | hmem
      · exact Function.update_self ..
      · exact absurd rfl (hnot _ hmem)

/-- With no place written twice, every write stands. -/
theorem writeAll_of_nodup {f : κ → V} {ws : List (κ × V)} {k : κ} {v : V} (hmem : (k, v) ∈ ws)
    (hnodup : (ws.map Prod.fst).Nodup) : writeAll f ws k = v := by
  refine writeAll_of_mem hmem fun w hw hk => ?_
  have heq : w = (k, v) := List.inj_on_of_nodup_map hnodup hw hmem hk
  rw [heq]

/-- A place has what was there, or what was written last. -/
theorem writeAll_congr_at {f g : κ → V} {ws : List (κ × V)} {k : κ} (h : f k = g k) :
    writeAll f ws k = writeAll g ws k := by
  induction ws generalizing f g with
  | nil => exact h
  | cons w ws ih =>
    rw [writeAll_cons, writeAll_cons]
    refine ih ?_
    rw [Function.update_apply, Function.update_apply, h]

/-- What a list of writes leaves depends on the places that it does not name only. -/
theorem writeAll_congr {f g : κ → V} {ws : List (κ × V)}
    (h : ∀ k, (∀ w ∈ ws, w.1 ≠ k) → f k = g k) : writeAll f ws = writeAll g ws := by
  induction ws generalizing f g with
  | nil => exact funext fun k => h k (by simp)
  | cons w ws ih =>
    rw [writeAll_cons, writeAll_cons]
    refine ih fun k hk => ?_
    by_cases hwk : k = w.1
    · subst hwk
      rw [Function.update_self, Function.update_self]
    · rw [Function.update_of_ne hwk, Function.update_of_ne hwk]
      refine h k fun w' hw' => ?_
      rcases List.mem_cons.1 hw' with rfl | hw'
      · exact fun heq => hwk heq.symm
      · exact hk w' hw'

end

end CLib
