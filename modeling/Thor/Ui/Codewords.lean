import Thor.CLib.Cyclic
import Thor.CLib.Interleave
import Thor.Ui.Capacity
import Thor.Ui.Field

/-!
# Codewords (ui/qr_generator.c)

The data of a symbol is cut into blocks, each block gets its error correction codewords, and
the codewords of all blocks are interleaved.

- `reedSolomonComputeDivisor`, `reedSolomonComputeRemainder`: the loops, over the arrays of
  the source. The remainder goes behind the data in the array that the data is read from.
- `addEccAndInterleave`: one block after the other.
- `divisor_gives`, `remainder_gives`: the loops compute the generator with the roots
  `2^0, 2^1, ...` and the remainder of a block by it.
- `blockWord`, `horner_blockWord`: a block with its error correction behind it, which vanishes
  at those roots.
-/

namespace Thor

open CLib

/-- `qrcodegen_REED_SOLOMON_DEGREE_MAX`. -/
def reedSolomonDegreeMax : Nat := 30

/-- The inner loop: the product so far is multiplied by `x - root`. -/
def multiplyByRoot (degree : Nat) (root : Byte) (result : Bytes) : Option Bytes :=
  loop degree (fun j result => do
    let v ← load result j
    let result ← store result j (reedSolomonMultiply v root)
    if j + 1 < degree then do
      let a ← load result j
      let b ← load result (j + 1)
      store result j (a ^^^ b)
    else some result) result

def reedSolomonComputeDivisor (degree : Nat) (result : Bytes) : Option Bytes := do
  assert (1 ≤ degree ∧ degree ≤ reedSolomonDegreeMax)
  let result ← memset result 0 degree
  let result ← store result (degree - 1) 1
  let st ← loop degree (fun _ st => do
    let result ← multiplyByRoot degree st.2 st.1
    return (result, reedSolomonMultiply st.2 0x02)) (result, (1 : Byte))
  return st.1

/-- One round of the division, for the next byte of the block. -/
def divideStep (generator : Bytes) (degree result : Nat) (d : Byte) (buf : Bytes) :
    Option Bytes := do
  let r ← load buf result
  let buf ← memmove buf result (result + 1) (degree - 1)
  let buf ← store buf (result + (degree - 1)) 0
  loop degree (fun j buf => do
    let g ← load generator j
    let v ← load buf (result + j)
    store buf (result + j) (v ^^^ reedSolomonMultiply g (d ^^^ r))) buf

/-- The block is at `data`, the remainder goes to `result`, both in the array `buf`. -/
def reedSolomonComputeRemainder (buf : Bytes) (data dataLen : Nat) (generator : Bytes)
    (degree result : Nat) : Option Bytes := do
  assert (1 ≤ degree ∧ degree ≤ reedSolomonDegreeMax)
  let buf ← memsetAt buf result 0 degree
  loop dataLen (fun i buf => do
    let d ← load buf (data + i)
    divideStep generator degree result d buf) buf

/-- The loop that copies the data of block `i`, from `dat`. -/
def copyData (data : Bytes) (dat datLen shortBlockDataLen numShortBlocks numBlocks i : Nat)
    (result : Bytes) : Option (Bytes × Nat) :=
  loop datLen (fun j st => do
    let k := if j = shortBlockDataLen then st.2 - numShortBlocks else st.2
    let v ← load data (dat + j)
    let result ← store st.1 k v
    return (result, k + numBlocks)) (result, i)

/-- The loop that copies the error correction of block `i`, from the place behind the data. -/
def copyEcc (data : Bytes) (dataLen blockEccLen numBlocks i : Nat) (result : Bytes) :
    Option (Bytes × Nat) :=
  loop blockEccLen (fun j st => do
    let v ← load data (dataLen + j)
    let result ← store st.1 st.2 v
    return (result, st.2 + numBlocks)) (result, dataLen + i)

/-- `data` and `result` of the source come back; the state of the loop over the blocks has
the place of `dat` as well. -/
def addEccAndInterleave (data : Bytes) (version : Nat) (ecl : Ecc) (result : Bytes) :
    Option (Bytes × Bytes) := do
  assert (versionMin ≤ version ∧ version ≤ versionMax)
  let numBlocks := numBlocks ecl version
  let blockEccLen := blockEccLen ecl version
  let rawCodewords := (← getNumRawDataModules version) / 8
  let dataLen ← getNumDataCodewords version ecl
  let numShortBlocks := numBlocks - rawCodewords % numBlocks
  let shortBlockDataLen := rawCodewords / numBlocks - blockEccLen
  let rsdiv ← reedSolomonComputeDivisor blockEccLen (Array.replicate reedSolomonDegreeMax 0)
  let st ← loop numBlocks (fun i st => do
    let datLen := shortBlockDataLen + if i < numShortBlocks then 0 else 1
    let data ← reedSolomonComputeRemainder st.1 st.2.2 datLen rsdiv blockEccLen dataLen
    let copied ← copyData data st.2.2 datLen shortBlockDataLen numShortBlocks numBlocks i st.2.1
    let copied ← copyEcc data dataLen blockEccLen numBlocks i copied.1
    return (data, copied.1, st.2.2 + datLen)) (data, result, 0)
  return (st.1, st.2.1)

/-! ## The divisor -/

/-- Bytes as elements of the field. -/
def inField (l : List Byte) : List GF := l.map GF.mk

@[simp] theorem length_inField (l : List Byte) : (inField l).length = l.length := List.length_map ..

theorem getElem?_inField_slice (b : Bytes) (off n i : Nat) :
    (inField (slice b off n))[i]? = if i < n then some ⟨octetAt b (off + i)⟩ else none := by
  rw [inField, List.getElem?_map, getElem?_slice]
  split <;> rfl

theorem getD_inField_slice (b : Bytes) (off n i : Nat) :
    (inField (slice b off n)).getD i 0 = if i < n then ⟨octetAt b (off + i)⟩ else 0 := by
  rw [List.getD_eq_getElem?_getD, getElem?_inField_slice]
  split <;> rfl

/-- The roots of the code: the first powers of two. -/
def roots (degree : Nat) : List GF := (List.range degree).map fun i => GF.two ^ i

theorem roots_succ (i : Nat) : roots (i + 1) = roots i ++ [GF.two ^ i] := by
  rw [roots, List.range_succ, List.map_append]
  rfl

@[simp] theorem length_roots (degree : Nat) : (roots degree).length = degree := by
  rw [roots, List.length_map, List.length_range]

theorem multiplyByRoot_gives {degree : Nat} (root : Byte) {b : Bytes} (h : degree ≤ b.size) :
    Gives (multiplyByRoot degree root b) fun b' => b'.size = b.size ∧
      inField (slice b' 0 degree) = timesRootIn ⟨root⟩ (inField (slice b 0 degree)) := by
  refine (loop_gives (fun k b' => b'.size = b.size ∧ ∀ j < degree, octetAt b' j =
    if j < k then reedSolomonMultiply (octetAt b j) root ^^^
      (if j + 1 < degree then octetAt b (j + 1) else 0) else octetAt b j) ?_ ?_).mono ?_
  · exact ⟨rfl, fun j _ => (if_neg (Nat.not_lt_zero j)).symm⟩
  · rintro k hk b' ⟨hsize, hb⟩
    have hin : k < b'.size := by omega
    rw [load_bind hin, store_bind _ hin]
    have hk0 : octetAt b' k = octetAt b k := by rw [hb k hk, if_neg (Nat.lt_irrefl k)]
    by_cases hnext : k + 1 < degree
    · have hk1 : octetAt b' (k + 1) = octetAt b (k + 1) := by rw [hb _ hnext, if_neg (by omega)]
      rw [if_pos hnext, load_bind (by simpa using hin), load_bind (by simp; omega),
        store_eq _ (by simpa using hin), octetAt_set _ hin, if_pos rfl, octetAt_set _ hin,
        if_neg (by omega), hk0, hk1]
      refine gives_some ⟨by simpa using hsize, fun j hj => ?_⟩
      rw [octetAt_set _ (by simpa using hin), octetAt_set _ hin, hb j hj]
      by_cases hkj : k = j
      · subst hkj
        rw [if_pos rfl, if_pos (Nat.lt_succ_self k), if_pos hnext]
      · rw [if_neg hkj, if_neg hkj]
        simp only [show j < k + 1 ↔ j < k by omega]
    · rw [if_neg hnext, hk0]
      refine gives_some ⟨by simpa using hsize, fun j hj => ?_⟩
      rw [octetAt_set _ hin, hb j hj]
      by_cases hkj : k = j
      · subst hkj
        rw [if_pos rfl, if_pos (Nat.lt_succ_self k), if_neg hnext]
        exact BitVec.xor_zero.symm
      · rw [if_neg hkj]
        simp only [show j < k + 1 ↔ j < k by omega]
  · rintro b' ⟨hsize, hb⟩
    refine ⟨hsize, List.ext_getElem? fun j => ?_⟩
    by_cases hj : j < degree
    · rw [getElem?_timesRootIn (by simpa using hj), getD_inField_slice, getD_inField_slice,
        getElem?_inField_slice, if_pos hj, if_pos hj, Nat.zero_add, hb j hj, if_pos hj,
        mul_comm]
      congr 1
      split
      · rw [Nat.zero_add]
        rfl
      · rfl
    · rw [List.getElem?_eq_none (by simpa using hj), List.getElem?_eq_none (by simpa using hj)]

/-- After `degree` rounds the array holds the product of the linear factors, without its leading
coefficient; before, the product so far is at the end of the array. -/
theorem divisor_gives {degree : Nat} (h1 : 1 ≤ degree) (h2 : degree ≤ reedSolomonDegreeMax)
    {result : Bytes} (hroom : degree ≤ result.size) :
    Gives (reedSolomonComputeDivisor degree result) fun b => b.size = result.size ∧
      inField (slice b 0 degree) = generator (roots degree) := by
  rw [reedSolomonComputeDivisor, assert_bind ⟨h1, h2⟩, memset_eq _ hroom, some_bind,
    store_bind _ (by simp; omega)]
  generalize hstart : Array.setIfInBounds (result.mapIdx fun i x => if i < degree then 0 else x)
    (degree - 1) 1 = start
  have hbyte : ∀ j < degree, octetAt start j = if degree - 1 = j then 1 else 0 := by
    intro j hj
    rw [← hstart, octetAt_set _ (by simp; omega), octetAt_memset _ hroom, if_pos hj]
  have hsize : start.size = result.size := by rw [← hstart]; simp
  refine Gives.bind (loop_gives (fun i st => st.1.size = result.size ∧ st.2 = (GF.two ^ i).byte ∧
    inField (slice st.1 0 degree) = if i < degree
      then List.replicate (degree - 1 - i) 0 ++ 1 :: generator (roots i)
      else generator (roots i)) ?_ ?_) ?_
  · refine ⟨hsize, rfl, ?_⟩
    rw [if_pos (by omega)]
    refine List.ext_getElem? fun j => ?_
    rw [getElem?_inField_slice]
    by_cases hj : j < degree
    · rw [if_pos hj, Nat.zero_add, hbyte j hj]
      by_cases hlast : degree - 1 = j
      · rw [if_pos hlast, List.getElem?_append_right (by simpa using by omega)]
        simp [← hlast]
        rfl
      · rw [if_neg hlast, List.getElem?_append_left (by simpa using by omega),
          List.getElem?_replicate, if_pos (by omega)]
        rfl
    · rw [if_neg hj, List.getElem?_eq_none]
      simp [roots]
      omega
  · rintro i hi ⟨b, root⟩ ⟨hb, hroot, hslice⟩
    simp only at hb hroot hslice
    rw [if_pos hi] at hslice
    refine (multiplyByRoot_gives root (show degree ≤ b.size by omega)).bind fun b' hb' => ?_
    refine gives_some ⟨hb'.1.trans hb, ?_, ?_⟩
    · rw [hroot, pow_succ]
      rfl
    · rw [hb'.2, hslice, roots_succ, generator_concat, hroot]
      by_cases hlast : i + 1 < degree
      · rw [if_pos hlast, show degree - 1 - i = (degree - 1 - (i + 1)) + 1 by omega,
          timesRootIn_pad]
      · rw [if_neg hlast, show degree - 1 - i = 0 by omega]
        exact timesRootIn_one _ _
  · rintro ⟨b, root⟩ ⟨hb, -, hslice⟩
    rw [if_neg (Nat.lt_irrefl degree)] at hslice
    exact gives_some ⟨hb, hslice⟩

/-! ## The remainder -/

/-- A round of the division is a step of the shift register; the rest of the array stays. -/
theorem divideStep_gives {generator : Bytes} {degree result : Nat} (d : Byte) {b : Bytes}
    (h1 : 1 ≤ degree) (hgen : degree ≤ generator.size) (hroom : result + degree ≤ b.size) :
    Gives (divideStep generator degree result d b) fun b' => b'.size = b.size ∧
      inField (slice b' result degree) =
        registerStep (inField (slice generator 0 degree)) (inField (slice b result degree)) ⟨d⟩ ∧
      ∀ j, j < result ∨ result + degree ≤ j → octetAt b' j = octetAt b j := by
  rw [divideStep, load_bind (by omega)]
  refine (memmove_gives (by omega) (by omega)).bind ?_
  rintro b1 ⟨hsize1, hb1⟩
  rw [store_bind _ (by omega)]
  generalize hb2 : Array.setIfInBounds b1 (result + (degree - 1)) 0 = b2
  have hsize2 : b2.size = b.size := by rw [← hb2]; simpa using hsize1
  -- the register has moved up, and a zero is in its last place
  have hshift : ∀ j < degree, octetAt b2 (result + j) =
      if j + 1 < degree then octetAt b (result + (j + 1)) else 0 := by
    intro j hj
    rw [← hb2, octetAt_set _ (by omega), hb1]
    by_cases hlast : j + 1 < degree
    · rw [if_neg (by omega), if_pos (by omega), if_pos hlast]
      congr 1
      omega
    · rw [if_pos (by omega), if_neg hlast]
  have hrest : ∀ j, j < result ∨ result + degree ≤ j → octetAt b2 j = octetAt b j := by
    intro j hj
    rw [← hb2, octetAt_set _ (by omega), if_neg (by omega), hb1, if_neg (by omega)]
  refine (loop_gives (fun k b' => b'.size = b.size ∧
    (∀ j < degree, octetAt b' (result + j) = if j < k
      then octetAt b2 (result + j) ^^^
        reedSolomonMultiply (octetAt generator j) (d ^^^ octetAt b result)
      else octetAt b2 (result + j)) ∧
    ∀ j, j < result ∨ result + degree ≤ j → octetAt b' j = octetAt b j) ?_ ?_).mono ?_
  · exact ⟨hsize2, fun j _ => (if_neg (Nat.not_lt_zero j)).symm, hrest⟩
  · rintro k hk b' ⟨hsize, hb', hrest'⟩
    have hin : result + k < b'.size := by omega
    rw [load_bind (by omega), load_bind hin, store_eq _ hin]
    refine gives_some ⟨by simpa using hsize, fun j hj => ?_, fun j hj => ?_⟩
    · rw [octetAt_set _ hin]
      by_cases hkj : k = j
      · subst hkj
        rw [if_pos rfl, if_pos (Nat.lt_succ_self k), hb' k hk, if_neg (Nat.lt_irrefl k)]
      · rw [if_neg (by omega), hb' j hj]
        simp only [show j < k + 1 ↔ j < k by omega]
    · rw [octetAt_set _ hin, if_neg (by omega), hrest' j hj]
  · rintro b' ⟨hsize, hb', hrest'⟩
    refine ⟨hsize, List.ext_getElem? fun j => ?_, hrest'⟩
    by_cases hj : j < degree
    · rw [getElem?_registerStep (by simp) _ (by simpa using hj), getD_inField_slice,
        getD_inField_slice, getD_inField_slice, getElem?_inField_slice, if_pos hj, if_pos hj,
        if_pos (show 0 < degree by omega), hb' j hj, if_pos hj, hshift j hj, Nat.zero_add,
        Nat.add_zero]
      split <;> rfl
    · rw [List.getElem?_eq_none (by simpa using hj),
        List.getElem?_eq_none (by rw [length_registerStep (by simp)]; simpa using hj)]

/-- The remainder of a block, behind the data; the data stays. -/
theorem remainder_gives {b generator : Bytes} {data dataLen degree result : Nat}
    (h1 : 1 ≤ degree) (h2 : degree ≤ reedSolomonDegreeMax) (hgen : degree ≤ generator.size)
    (hdata : data + dataLen ≤ result) (hroom : result + degree ≤ b.size) :
    Gives (reedSolomonComputeRemainder b data dataLen generator degree result) fun b' =>
      b'.size = b.size ∧
      inField (slice b' result degree) =
        register (inField (slice generator 0 degree)) (inField (slice b data dataLen)) ∧
      ∀ j, j < result ∨ result + degree ≤ j → octetAt b' j = octetAt b j := by
  rw [reedSolomonComputeRemainder, assert_bind ⟨h1, h2⟩]
  refine (memsetAt_gives 0 hroom).bind ?_
  rintro b0 ⟨hsize0, hb0⟩
  refine loop_gives (fun i b' => b'.size = b.size ∧
    inField (slice b' result degree) =
      register (inField (slice generator 0 degree)) (inField (slice b data i)) ∧
    ∀ j, j < result ∨ result + degree ≤ j → octetAt b' j = octetAt b j) ?_ ?_
  · refine ⟨hsize0, List.ext_getElem? fun j => ?_, fun j hj => ?_⟩
    · rw [getElem?_inField_slice, hb0]
      show _ = (List.replicate (inField (slice generator 0 degree)).length (0 : GF))[j]?
      rw [List.getElem?_replicate, length_inField, length_slice]
      by_cases hj : j < degree
      · rw [if_pos hj, if_pos hj, if_pos (by omega)]
        rfl
      · rw [if_neg hj, if_neg hj]
    · rw [hb0, if_neg (by omega)]
  · rintro i hi b' ⟨hsize, hreg, hrest⟩
    rw [load_bind (by omega), hrest _ (.inl (by omega))]
    refine (divideStep_gives _ h1 hgen (by omega)).mono ?_
    rintro b'' ⟨hsize', hreg', hrest'⟩
    refine ⟨hsize'.trans hsize, ?_, fun j hj => (hrest' j hj).trans (hrest j hj)⟩
    rw [hreg', hreg, slice_add, inField, inField, inField, List.map_append]
    exact (register_concat _ _ _).symm

/-! ## The blocks of a symbol -/

/-- The error correction codewords of a block of data. -/
def eccOf (degree : Nat) (block : List Byte) : List GF :=
  register (generator (roots degree)) (inField block)

@[simp] theorem length_eccOf (degree : Nat) (block : List Byte) :
    (eccOf degree block).length = degree := by
  rw [eccOf, length_register, length_generator, length_roots]

/-- The data codewords of a symbol, in blocks. -/
def dataBlocks (ecl : Ecc) (version : Nat) : Blocks where
  count := numBlocks ecl version
  short := numBlocks ecl version - rawDataModules version / 8 % numBlocks ecl version
  len := rawDataModules version / 8 / numBlocks ecl version - blockEccLen ecl version
  short_le := Nat.sub_le _ _

/-- The error correction codewords of a symbol: as many in every block. -/
def eccBlocks (ecl : Ecc) (version : Nat) : Blocks where
  count := numBlocks ecl version
  short := numBlocks ecl version
  len := blockEccLen ecl version
  short_le := Nat.le_refl _

/-- The blocks are the data. -/
theorem total_dataBlocks {version : Nat} (h : IsVersion version) (ecl : Ecc) :
    (dataBlocks ecl version).total = dataCodewords version ecl := by
  obtain ⟨hpos, -, -, hlen, -⟩ := layout_bounds h ecl
  have hmod := Nat.mod_lt (rawDataModules version / 8) hpos
  have hdiv := Nat.div_add_mod (rawDataModules version / 8) (numBlocks ecl version)
  have hmul : blockEccLen ecl version * numBlocks ecl version ≤
      numBlocks ecl version * (rawDataModules version / 8 / numBlocks ecl version) := by
    rw [Nat.mul_comm]
    exact Nat.mul_le_mul_left _ (Nat.le_of_lt hlen)
  simp only [Blocks.total, dataBlocks, dataCodewords, Nat.sub_mul]
  rw [Nat.mul_comm (rawDataModules version / 8 / numBlocks ecl version)]
  omega

/-- Data and error correction are the codewords of the symbol. -/
theorem total_eccBlocks {version : Nat} (h : IsVersion version) (ecl : Ecc) :
    dataCodewords version ecl + (eccBlocks ecl version).total = rawDataModules version / 8 := by
  obtain ⟨hpos, -, -, hlen, -⟩ := layout_bounds h ecl
  have hdiv := Nat.div_add_mod (rawDataModules version / 8) (numBlocks ecl version)
  have hmul : blockEccLen ecl version * numBlocks ecl version ≤
      numBlocks ecl version * (rawDataModules version / 8 / numBlocks ecl version) := by
    rw [Nat.mul_comm]
    exact Nat.mul_le_mul_left _ (Nat.le_of_lt hlen)
  simp only [Blocks.total, eccBlocks, dataCodewords, Nat.sub_self, Nat.add_zero]
  omega

theorem size_eccBlocks {ecl : Ecc} {version i : Nat} (hi : i < numBlocks ecl version) :
    (eccBlocks ecl version).size i = blockEccLen ecl version := by
  rw [Blocks.size, if_pos (show i < (eccBlocks ecl version).short from hi)]
  rfl

/-! ## The loops over a block -/

/-- The data of a block goes to its places. -/
theorem copyData_gives {B : Blocks} {data result : Bytes} {dat i : Nat} (hi : i < B.count)
    (hdata : dat + B.size i ≤ data.size) (hroom : B.total ≤ result.size) :
    Gives (copyData data dat (B.size i) B.len B.short B.count i result) fun st =>
      st.1.size = result.size ∧ octetAt st.1 = writeAll (octetAt result)
        ((List.range (B.size i)).map fun j => (B.place i j, octetAt data (dat + j))) := by
  refine (loop_gives (fun k st => st.1.size = result.size ∧
    (k ≤ B.len → st.2 = k * B.count + i) ∧ octetAt st.1 = writeAll (octetAt result)
      ((List.range k).map fun j => (B.place i j, octetAt data (dat + j)))) ?_ ?_).mono ?_
  · exact ⟨rfl, fun _ => by simp, rfl⟩
  · rintro k hk ⟨b, n⟩ ⟨hsize, hn, hb⟩
    simp only at hsize hn hb
    have hle : k ≤ B.len := by
      rcases Blocks.lt_size_iff.1 hk with h | ⟨h, -⟩ <;> omega
    -- the last column has the longer blocks only
    have hplace : (if k = B.len then n - B.short else n) = B.place i k := by
      rw [hn hle, Blocks.place]
    have hin : B.place i k < b.size := by
      have := Blocks.place_lt hi hk
      omega
    rw [hplace, load_bind (by omega), store_bind _ hin]
    refine gives_some ⟨by simpa using hsize, fun hlt => ?_, ?_⟩
    · show B.place i k + B.count = _
      rw [Blocks.place_of_lt hlt, Nat.succ_mul]
      omega
    · show octetAt (b.setIfInBounds _ _) = _
      rw [octetAt_set_eq _ hin, hb, List.range_succ, List.map_append, writeAll_append]
      rfl
  · rintro st ⟨hsize, -, hst⟩
    exact ⟨hsize, hst⟩

/-- The error correction of a block goes to its places. -/
theorem copyEcc_gives {B : Blocks} {data result : Bytes} {dataLen i : Nat} (hi : i < B.count)
    (hdata : dataLen + B.len ≤ data.size) (hroom : dataLen + B.total ≤ result.size) :
    Gives (copyEcc data dataLen B.len B.count i result) fun st =>
      st.1.size = result.size ∧ octetAt st.1 = writeAll (octetAt result)
        ((List.range B.len).map fun j => (dataLen + B.place i j, octetAt data (dataLen + j))) := by
  refine (loop_gives (fun k st => st.1.size = result.size ∧
    st.2 = dataLen + (k * B.count + i) ∧ octetAt st.1 = writeAll (octetAt result)
      ((List.range k).map fun j => (dataLen + B.place i j, octetAt data (dataLen + j)))) ?_ ?_).mono ?_
  · exact ⟨rfl, by simp, rfl⟩
  · rintro k hk ⟨b, n⟩ ⟨hsize, hn, hb⟩
    simp only at hsize hn hb
    have hsz : k < B.size i := Blocks.lt_size_iff.2 (.inl hk)
    have hplace : n = dataLen + B.place i k := by rw [hn, Blocks.place_of_lt hk]
    have hin : dataLen + B.place i k < b.size := by
      have := Blocks.place_lt hi hsz
      omega
    rw [hplace, load_bind (by omega), store_bind _ hin]
    refine gives_some ⟨by simpa using hsize, ?_, ?_⟩
    · show dataLen + B.place i k + B.count = _
      rw [Blocks.place_of_lt hk, Nat.succ_mul]
      omega
    · show octetAt (b.setIfInBounds _ _) = _
      rw [octetAt_set_eq _ hin, hb, List.range_succ, List.map_append, writeAll_append]
      rfl
  · rintro st ⟨hsize, -, hst⟩
    exact ⟨hsize, hst⟩

/-! ## All blocks -/

/-- The data of a block. -/
def blockData (ecl : Ecc) (version : Nat) (data : Bytes) (i : Nat) : List Byte :=
  slice data ((dataBlocks ecl version).offset i) ((dataBlocks ecl version).size i)

/-- What is written of a block: its data, then its error correction. -/
def blockWrites (ecl : Ecc) (version : Nat) (data : Bytes) (i : Nat) : List (Nat × Byte) :=
  ((List.range ((dataBlocks ecl version).size i)).map fun j =>
    ((dataBlocks ecl version).place i j, octetAt data ((dataBlocks ecl version).offset i + j))) ++
  (List.range (blockEccLen ecl version)).map fun j =>
    (dataCodewords version ecl + (eccBlocks ecl version).place i j,
      ((eccOf (blockEccLen ecl version) (blockData ecl version data i)).getD j 0).byte)

/-- The loop over the blocks: before block `i` the data is as it was, and the blocks up to it
are in their places. -/
theorem addEccAndInterleave_gives {version : Nat} (h : IsVersion version) (ecl : Ecc)
    {data result : Bytes} (hdata : rawDataModules version / 8 ≤ data.size)
    (hresult : rawDataModules version / 8 ≤ result.size) :
    Gives (addEccAndInterleave data version ecl result) fun r =>
      r.1.size = data.size ∧ r.2.size = result.size ∧ octetAt r.2 = writeAll (octetAt result)
        ((List.range (numBlocks ecl version)).flatMap (blockWrites ecl version data)) := by
  obtain ⟨hpos, h7, h30, -, -⟩ := layout_bounds h ecl
  have htotal := total_dataBlocks h ecl
  have hraw := total_eccBlocks h ecl
  have hecc : blockEccLen ecl version ≤ (eccBlocks ecl version).total := by
    have hmul := Nat.mul_le_mul_left (blockEccLen ecl version) hpos
    have htot : (eccBlocks ecl version).total =
        blockEccLen ecl version * numBlocks ecl version +
          (numBlocks ecl version - numBlocks ecl version) := rfl
    omega
  rw [addEccAndInterleave, assert_bind ⟨h.1, h.2⟩, getNumRawDataModules_eq h, some_bind,
    getNumDataCodewords_eq h, some_bind]
  have hbuffer : blockEccLen ecl version ≤ (Array.replicate reedSolomonDegreeMax (0 : Byte)).size := by
    rw [Array.size_replicate]
    exact h30
  refine (divisor_gives (by omega) h30 hbuffer).bind ?_
  rintro rsdiv ⟨hsizediv, hdiv⟩
  rw [← hsizediv] at hbuffer
  refine Gives.bind (loop_gives (fun i st => st.1.size = data.size ∧ st.2.1.size = result.size ∧
    st.2.2 = (dataBlocks ecl version).offset i ∧
    (∀ j < dataCodewords version ecl, octetAt st.1 j = octetAt data j) ∧
    octetAt st.2.1 = writeAll (octetAt result)
      ((List.range i).flatMap (blockWrites ecl version data))) ?_ ?_) ?_
  · exact ⟨rfl, rfl, (Blocks.offset_zero _).symm, fun _ _ => rfl, rfl⟩
  · rintro i hi ⟨d, res, dat⟩ ⟨hd, hres, hdat, hsame, hwrites⟩
    simp only at hd hres hdat hsame hwrites
    have hi' : i < (dataBlocks ecl version).count := hi
    have hblock := (dataBlocks ecl version).offset_add_size_le hi'
    have hslice : slice d dat ((dataBlocks ecl version).size i) = blockData ecl version data i := by
      rw [hdat]
      exact slice_congr fun j _ hj => hsame j (by omega)
    have hremainder : Gives (reedSolomonComputeRemainder d dat ((dataBlocks ecl version).size i)
        rsdiv (blockEccLen ecl version) (dataCodewords version ecl)) _ :=
      remainder_gives (by omega) h30 hbuffer (by omega) (by omega)
    refine hremainder.bind ?_
    rintro d' ⟨hd', hreg, hrest⟩
    rw [hdiv, hslice] at hreg
    have hcopyData : Gives (copyData d' dat ((dataBlocks ecl version).size i)
        (dataBlocks ecl version).len (dataBlocks ecl version).short
        (dataBlocks ecl version).count i res) _ :=
      copyData_gives hi' (by omega) (by omega)
    refine hcopyData.bind ?_
    rintro c ⟨hc, hcw⟩
    have hcopyEcc : Gives (copyEcc d' (dataCodewords version ecl) (eccBlocks ecl version).len
        (eccBlocks ecl version).count i c.1) _ :=
      copyEcc_gives hi (show dataCodewords version ecl + blockEccLen ecl version ≤ _ by omega)
        (by omega)
    refine hcopyEcc.bind ?_
    rintro c' ⟨hc', hcw'⟩
    refine gives_some ⟨hd'.trans hd, hc'.trans (hc.trans hres), ?_, fun j hj => ?_, ?_⟩
    · show dat + (dataBlocks ecl version).size i = _
      rw [hdat, Blocks.offset_succ]
    · rw [hrest j (.inl hj), hsame j hj]
    · -- what was copied is what the block is
      have hdata' : ((List.range ((dataBlocks ecl version).size i)).map fun j =>
          ((dataBlocks ecl version).place i j, octetAt d' (dat + j))) =
          (List.range ((dataBlocks ecl version).size i)).map fun j =>
            ((dataBlocks ecl version).place i j,
              octetAt data ((dataBlocks ecl version).offset i + j)) := by
        refine List.map_congr_left fun j hj => ?_
        have hj := List.mem_range.1 hj
        rw [hrest _ (.inl (by omega)), hsame _ (by omega), hdat]
      have hecc' : ((List.range (eccBlocks ecl version).len).map fun j =>
          (dataCodewords version ecl + (eccBlocks ecl version).place i j,
            octetAt d' (dataCodewords version ecl + j))) =
          (List.range (blockEccLen ecl version)).map fun j =>
            (dataCodewords version ecl + (eccBlocks ecl version).place i j,
              ((eccOf (blockEccLen ecl version) (blockData ecl version data i)).getD j 0).byte) := by
        refine List.map_congr_left fun j hj => ?_
        have hj : j < blockEccLen ecl version := List.mem_range.1 hj
        rw [eccOf, ← hreg, getD_inField_slice, if_pos hj]
      show octetAt c'.1 = _
      rw [hcw', hcw, hdata', hecc', hwrites, ← writeAll_append, ← writeAll_append, List.range_succ,
        List.flatMap_append, List.flatMap_singleton, blockWrites]
  · rintro ⟨d, res, dat⟩ ⟨hd, hres, -, -, hwrites⟩
    exact gives_some ⟨hd, hres, hwrites⟩

/-- The codeword of a write is the only one for its place. -/
theorem blockWrites_agree {version : Nat} (h : IsVersion version) (ecl : Ecc) (data : Bytes)
    {i : Nat} (hi : i < numBlocks ecl version) {w : Nat × Byte}
    (hw : w ∈ blockWrites ecl version data i) {i' : Nat} (hi' : i' < numBlocks ecl version)
    {w' : Nat × Byte} (hw' : w' ∈ blockWrites ecl version data i') (heq : w'.1 = w.1) :
    w'.2 = w.2 := by
  have htotal := total_dataBlocks h ecl
  have hd : ∀ {i j}, i < numBlocks ecl version → j < (dataBlocks ecl version).size i →
      (dataBlocks ecl version).place i j < dataCodewords version ecl := by
    intro i j hi hj
    rw [← htotal]
    exact Blocks.place_lt hi hj
  simp only [blockWrites, List.mem_append, List.mem_map, List.mem_range] at hw hw'
  rcases hw with ⟨j, hj, rfl⟩ | ⟨j, hj, rfl⟩ <;> rcases hw' with ⟨j', hj', rfl⟩ | ⟨j', hj', rfl⟩
  · obtain ⟨rfl, rfl⟩ := Blocks.place_inj hi' hi hj' hj heq
    rfl
  · -- data and error correction do not meet
    have hlt := hd hi hj
    simp only at heq
    omega
  · have hlt := hd hi' hj'
    simp only at heq
    omega
  · have hsz : ∀ {i j}, j < blockEccLen ecl version → j < (eccBlocks ecl version).size i :=
      fun hj => Blocks.lt_size_iff.2 (.inl hj)
    obtain ⟨rfl, rfl⟩ := Blocks.place_inj (B := eccBlocks ecl version) hi' hi (hsz hj') (hsz hj)
      (by simpa using heq)
    rfl

/-- Every codeword of every block is at its place. -/
theorem interleaved_at {version : Nat} (h : IsVersion version) (ecl : Ecc) {data : Bytes}
    {f g : Nat → Byte} (hf : f = writeAll g
      ((List.range (numBlocks ecl version)).flatMap (blockWrites ecl version data)))
    {i : Nat} (hi : i < numBlocks ecl version) :
    (∀ j < (dataBlocks ecl version).size i, f ((dataBlocks ecl version).place i j) =
      octetAt data ((dataBlocks ecl version).offset i + j)) ∧
    ∀ j < blockEccLen ecl version, f (dataCodewords version ecl + (eccBlocks ecl version).place i j) =
      ((eccOf (blockEccLen ecl version) (blockData ecl version data i)).getD j 0).byte := by
  have hstands : ∀ w ∈ blockWrites ecl version data i, f w.1 = w.2 := by
    intro w hw
    rw [hf]
    refine writeAll_of_mem (List.mem_flatMap.2 ⟨i, List.mem_range.2 hi, hw⟩) fun w' hw' heq => ?_
    obtain ⟨i', hi', hw'⟩ := List.mem_flatMap.1 hw'
    exact blockWrites_agree h ecl data hi hw (List.mem_range.1 hi') hw' heq
  constructor
  · intro j hj
    exact hstands (_, _) (List.mem_append_left _ (List.mem_map.2 ⟨j, List.mem_range.2 hj, rfl⟩))
  · intro j hj
    exact hstands (_, _) (List.mem_append_right _ (List.mem_map.2 ⟨j, List.mem_range.2 hj, rfl⟩))

theorem blockData_congr {version : Nat} (h : IsVersion version) {ecl : Ecc} {data data' : Bytes}
    (hsame : ∀ j < dataCodewords version ecl, octetAt data j = octetAt data' j) {i : Nat}
    (hi : i < numBlocks ecl version) :
    blockData ecl version data i = blockData ecl version data' i := by
  have hi' : i < (dataBlocks ecl version).count := hi
  have hblock := (dataBlocks ecl version).offset_add_size_le hi'
  have htotal := total_dataBlocks h ecl
  exact slice_congr fun j _ hj => hsame j (by omega)

/-- The codewords depend on the data only, and not on what was in the arrays before. -/
theorem interleaved_same {version : Nat} (h : IsVersion version) {ecl : Ecc} {data data' : Bytes}
    (hsame : ∀ j < dataCodewords version ecl, octetAt data j = octetAt data' j) {f f' g g' : Nat → Byte}
    (hf : f = writeAll g ((List.range (numBlocks ecl version)).flatMap
      (blockWrites ecl version data)))
    (hf' : f' = writeAll g' ((List.range (numBlocks ecl version)).flatMap
      (blockWrites ecl version data'))) {k : Nat} (hk : k < rawDataModules version / 8) :
    f k = f' k := by
  have htotal := total_dataBlocks h ecl
  have hraw := total_eccBlocks h ecl
  by_cases hdata : k < dataCodewords version ecl
  · obtain ⟨i, hi, j, hj, rfl⟩ := Blocks.place_surj (B := dataBlocks ecl version) (by omega : k < _)
    have hblock := Blocks.offset_add_size_le (dataBlocks ecl version) hi
    rw [(interleaved_at h ecl hf hi).1 j hj, (interleaved_at h ecl hf' hi).1 j hj]
    exact hsame _ (by omega)
  · obtain ⟨i, hi, j, hj, hplace⟩ := Blocks.place_surj (B := eccBlocks ecl version)
      (by omega : k - dataCodewords version ecl < _)
    have hi : i < numBlocks ecl version := hi
    rw [size_eccBlocks hi] at hj
    have hk : k = dataCodewords version ecl + (eccBlocks ecl version).place i j := by omega
    rw [hk, (interleaved_at h ecl hf hi).2 j hj, (interleaved_at h ecl hf' hi).2 j hj,
      blockData_congr h hsame hi]

/-! ## The code -/

/-- A block of data with its error correction behind it. -/
def blockWord (degree : Nat) (block : List Byte) : List GF := inField block ++ eccOf degree block

theorem root_of_generator {degree j : Nat} (hj : j < degree) :
    horner (GF.two ^ j) (1 :: generator (roots degree)) = 0 := by
  rw [horner_generator]
  refine List.prod_eq_zero (List.mem_map.2 ⟨GF.two ^ j, ?_, GF.add_self _⟩)
  exact List.mem_map.2 ⟨j, List.mem_range.2 hj, rfl⟩

/-- Every block is a word of the code: it vanishes at the roots. -/
theorem horner_blockWord {degree j : Nat} (hj : j < degree) (block : List Byte) :
    horner (GF.two ^ j) (blockWord degree block) = 0 :=
  horner_append_register (root_of_generator hj) _

end Thor
