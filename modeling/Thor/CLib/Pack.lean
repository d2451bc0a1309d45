import Thor.CLib.Bits

/-!
# Digits packed into bit fields

A run of digits in some base is cut into groups of a fixed size, the last one perhaps
smaller, and every group is written as one number in a bit field whose width depends on the
size of the group only.

- `packed`, `unpacked`: a group of digits as one number, and back.
- `groupSizes`: how a run of a given length is cut.
- `pack`, `unpack`: the fields of a run, and the reader that knows the length of the run.
- `unpack_pack`: the reader gets the digits back when every field is wide enough.
- `length_pack_groupSizes`: the number of bits.
-/

namespace CLib

/-! ## One group -/

/-- Digits, the most significant first, as one number. -/
def packed (base : Nat) (ds : List Nat) : Nat := ds.foldl (fun v d => v * base + d) 0

/-- The digits of a number, as many as asked for. -/
def unpacked (base : Nat) : Nat → Nat → List Nat
  | 0, _ => []
  | m + 1, v => unpacked base m (v / base) ++ [v % base]

@[simp] theorem packed_nil (base : Nat) : packed base [] = 0 := rfl

theorem packed_concat (base : Nat) (ds : List Nat) (d : Nat) :
    packed base (ds ++ [d]) = packed base ds * base + d := by
  rw [packed, List.foldl_append]
  rfl

theorem packed_lt {base : Nat} {ds : List Nat} (h : ∀ d ∈ ds, d < base) :
    packed base ds < base ^ ds.length := by
  induction ds using List.reverseRecOn with
  | nil => simp
  | append_singleton ds d ih =>
    have hd : d < base := h d (by simp)
    have ih := ih fun d' hd' => h d' (List.mem_append_left _ hd')
    rw [packed_concat, List.length_append, List.length_singleton, Nat.pow_succ]
    calc packed base ds * base + d < packed base ds * base + base := by omega
      _ = (packed base ds + 1) * base := by ring
      _ ≤ base ^ ds.length * base := Nat.mul_le_mul_right base ih

/-- The digits of a group come back. -/
theorem unpacked_packed {base : Nat} {ds : List Nat} (h : ∀ d ∈ ds, d < base) :
    unpacked base ds.length (packed base ds) = ds := by
  induction ds using List.reverseRecOn with
  | nil => rfl
  | append_singleton ds d ih =>
    have hd : d < base := h d (by simp)
    have hpos : 0 < base := Nat.zero_lt_of_lt hd
    rw [packed_concat, List.length_append, List.length_singleton, unpacked,
      Nat.add_comm (packed base ds * base), Nat.add_mul_div_right _ _ hpos, Nat.div_eq_of_lt hd,
      Nat.zero_add, Nat.add_mul_mod_self_right, Nat.mod_eq_of_lt hd,
      ih fun d' hd' => h d' (List.mem_append_left _ hd')]

/-! ## Runs of digits -/

/-- The sizes of the groups that `n` digits are cut into. -/
def groupSizes (chunk n : Nat) : List Nat :=
  List.replicate (n / chunk) chunk ++ if n % chunk = 0 then [] else [n % chunk]

/-- The fields of some digits. -/
def pack (base : Nat) (width : Nat → Nat) : List Nat → List Nat → List Bool
  | [], _ => []
  | m :: ms, ds => toBits (width m) (packed base (ds.take m)) ++ pack base width ms (ds.drop m)

/-- The digits in the fields at the head of some bits, and what is behind them. -/
def unpack (base : Nat) (width : Nat → Nat) : List Nat → List Bool → Option (List Nat × List Bool)
  | [], bs => some ([], bs)
  | m :: ms, bs =>
    if bs.length < width m then none
    else do
      let (ds, rest) ← unpack base width ms (bs.drop (width m))
      return (unpacked base m (ofBits (bs.take (width m))) ++ ds, rest)

theorem groupSizes_of_lt {chunk n : Nat} (h : n < chunk) :
    groupSizes chunk n = if n = 0 then [] else [n] := by
  rw [groupSizes, Nat.div_eq_of_lt h, Nat.mod_eq_of_lt h]
  rfl

theorem groupSizes_add {chunk : Nat} (hpos : 0 < chunk) (n : Nat) :
    groupSizes chunk (chunk + n) = chunk :: groupSizes chunk n := by
  rw [groupSizes, Nat.add_div_left n hpos, Nat.add_mod_left, List.replicate_succ, groupSizes,
    List.cons_append]

theorem total_groupSizes (chunk n : Nat) : total (groupSizes chunk n) = n := by
  rw [groupSizes, total_append, total_replicate]
  have h := Nat.div_add_mod' n chunk
  split
  · simp only [total]
    omega
  · simp only [total]
    omega

theorem le_of_mem_groupSizes {chunk n m : Nat} (hpos : 0 < chunk) (h : m ∈ groupSizes chunk n) :
    m ≤ chunk := by
  rcases List.mem_append.1 h with h | h
  · exact Nat.le_of_eq (List.eq_of_mem_replicate h)
  · split at h
    · simp at h
    · rw [List.mem_singleton] at h
      exact h ▸ Nat.le_of_lt (Nat.mod_lt n hpos)

theorem pos_of_mem_groupSizes {chunk n m : Nat} (hpos : 0 < chunk)
    (h : m ∈ groupSizes chunk n) : 0 < m := by
  rcases List.mem_append.1 h with h | h
  · rwa [List.eq_of_mem_replicate h]
  · split at h
    · simp at h
    · rw [List.mem_singleton] at h
      omega

/-- Only the widths of the sizes that there are play a part. -/
theorem unpack_congr {base : Nat} {width width' : Nat → Nat} {sizes : List Nat}
    (h : ∀ m ∈ sizes, width m = width' m) (bs : List Bool) :
    unpack base width sizes bs = unpack base width' sizes bs := by
  induction sizes generalizing bs with
  | nil => rfl
  | cons m ms ih =>
    rw [unpack, unpack, h m (List.mem_cons_self ..),
      ih (fun m' hm' => h m' (List.mem_cons_of_mem m hm'))]

/-- The reader gets the digits back, and stops behind them. -/
theorem unpack_pack {base : Nat} {width : Nat → Nat} (sizes : List Nat) {ds : List Nat}
    (hds : ∀ d ∈ ds, d < base) (hlen : total sizes = ds.length)
    (hwidth : ∀ m ∈ sizes, base ^ m ≤ 2 ^ width m) (rest : List Bool) :
    unpack base width sizes (pack base width sizes ds ++ rest) = some (ds, rest) := by
  induction sizes generalizing ds with
  | nil =>
    have hnil : ds = [] := List.length_eq_zero_iff.1 hlen.symm
    rw [hnil]
    rfl
  | cons m ms ih =>
    rw [total] at hlen
    have htake : (ds.take m).length = m := by rw [List.length_take]; omega
    have htake' : ∀ d ∈ ds.take m, d < base := fun d hd => hds d (List.mem_of_mem_take hd)
    -- the field of the first group is wide enough for it
    have hfield : packed base (ds.take m) < 2 ^ width m := by
      have h := packed_lt htake'
      rw [htake] at h
      exact Nat.lt_of_lt_of_le h (hwidth m (List.mem_cons_self ..))
    have hdrop : total ms = (ds.drop m).length := by rw [List.length_drop]; omega
    have ih := ih (fun d hd => hds d (List.mem_of_mem_drop hd)) hdrop
      fun m' hm' => hwidth m' (List.mem_cons_of_mem m hm')
    have hunpacked := unpacked_packed htake'
    rw [htake] at hunpacked
    rw [unpack, pack, if_neg (by simp), List.append_assoc, List.take_left' (length_toBits ..),
      List.drop_left' (length_toBits ..), ih, ofBits_toBits_of_lt hfield, hunpacked]
    show some (ds.take m ++ ds.drop m, rest) = some (ds, rest)
    rw [List.take_append_drop]

theorem length_pack_groupSizes {base : Nat} {width : Nat → Nat} {chunk : Nat} (ds : List Nat)
    (n : Nat) : (pack base width (groupSizes chunk n) ds).length =
      n / chunk * width chunk + if n % chunk = 0 then 0 else width (n % chunk) := by
  have hlen : ∀ (sizes ds : List Nat),
      (pack base width sizes ds).length = total (sizes.map width) := by
    intro sizes
    induction sizes with
    | nil => intro ds; rfl
    | cons m ms ih =>
      intro ds
      rw [pack, List.length_append, length_toBits, ih, List.map_cons, total]
  rw [hlen, groupSizes, List.map_append, List.map_replicate, total_append, total_replicate]
  split
  · rfl
  · rfl

end CLib
