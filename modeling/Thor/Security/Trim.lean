import Thor.CLib.Mem
import Thor.Security.Authorize

/-!
# Trimming in place (security/authorize.c, core/thor.c)

`remove_escape` runs down an array from a given index to `0` and puts a NUL in the place
of every line break. `removeEscape` says what string is left. Here the array has an end,
and each caller passes the index it passes.

- `trim`: the loop, `none` when it touches a byte outside the allocation.
- `TrimCall`: the calls of the repository.
- `trimmed_iff`: which of them leave the longest part without a line break, and its length.
-/

namespace Thor

open CLib

/-! ## The function -/

def isBreak (c : Char) : Bool := c == '\n' || c == '\r'

/-- A line break becomes a NUL. -/
def blank (c : Char) : Char := if isBreak c then '\x00' else c

/-- The body of the loop at index `i`. -/
def trimAt (mem : Str) (i : Nat) : Option Str := mem[i]?.map fun c => mem.set i (blank c)

/-- The loop from index `i` down to `0`. -/
def trimLoop (mem : Str) : Nat → Option Str
  | 0 => trimAt mem 0
  | i + 1 => (trimAt mem (i + 1)).bind fun mem => trimLoop mem i

/-- `remove_escape(name, inlen)`: the array and `*inlen` afterwards. -/
def trim (mem : Str) (inlen : Nat) : Option (Str × Nat) :=
  (trimLoop mem inlen).map fun mem => (mem, strnlen (cstr mem) inlen)

/-- `__copy_string`: an array just long enough for the string and its terminator. -/
def copyString (s1 : StrPtr) (maxLen : Nat) : Str := s1.mem.take (strnlen s1.str maxLen + 1)

/-! ## What the loop does -/

theorem trimAt_append (pre : Str) (c : Char) (post : Str) :
    trimAt (pre ++ c :: post) pre.length = some (pre ++ blank c :: post) := by
  simp [trimAt]

/-- The bytes up to the index are blanked, the others stay. -/
theorem trimLoop_append (pre : Str) (c : Char) (post : Str) :
    trimLoop (pre ++ c :: post) pre.length = some (pre.map blank ++ blank c :: post) := by
  induction pre using List.reverseRecOn generalizing c post with
  | nil => rfl
  | append_singleton pre d ih =>
    have hbody := trimAt_append (pre ++ [d]) c post
    rw [List.length_append, List.length_singleton] at hbody ⊢
    rw [trimLoop, hbody, Option.bind_some, List.append_assoc, List.singleton_append, ih,
      List.map_append, List.append_assoc]
    rfl

/-- The first index it touches is the highest one. -/
theorem trimLoop_eq_none {mem : Str} {i : Nat} (h : mem.length ≤ i) : trimLoop mem i = none := by
  have hbody : trimAt mem i = none := by
    rw [trimAt, List.getElem?_eq_none h]
    rfl
  cases i with
  | zero => exact hbody
  | succ i => rw [trimLoop, hbody, Option.bind_none]

theorem removeEscape_eq (s : Str) : removeEscape s = s.takeWhile fun c => !isBreak c := by
  unfold removeEscape isBreak
  simp [bne]

/-- Of a blanked string the part before the first break can be read. -/
theorem cstr_map_blank {s : Str} (hs : '\x00' ∉ s) (rest : Str) :
    cstr (s.map blank ++ '\x00' :: rest) = removeEscape s := by
  induction s with
  | nil => rfl
  | cons c s ih =>
    have hc : c ≠ '\x00' := fun h => hs (h ▸ List.mem_cons_self ..)
    have hrest := ih fun h => hs (List.mem_cons_of_mem c h)
    rw [removeEscape_eq] at hrest ⊢
    rw [List.map_cons, List.cons_append]
    unfold cstr at hrest ⊢
    cases hbreak : isBreak c with
    | true => simp [blank, hbreak]
    | false => simp [blank, hbreak, hc, hrest]

/-- Inside the allocation `remove_escape` is `removeEscape`. -/
theorem trim_eq {mem : Str} (hmem : '\x00' ∈ mem) {n : Nat} (hlen : (cstr mem).length ≤ n)
    (hn : n < mem.length) :
    ∃ mem', trim mem n = some (mem', (removeEscape (cstr mem)).length) ∧
      cstr mem' = removeEscape (cstr mem) := by
  obtain ⟨rest, hrest⟩ := eq_cstr_append hmem
  have hnul := nul_notMem_cstr mem
  generalize cstr mem = s at hrest hlen hnul ⊢
  -- the loop goes from index `n` down, so that it blanks the first `n + 1` bytes
  have hcut : mem = mem.take n ++ mem[n] :: mem.drop (n + 1) := by
    rw [← List.drop_eq_getElem_cons hn, List.take_append_drop]
  have hloop := trimLoop_append (mem.take n) mem[n] (mem.drop (n + 1))
  rw [← hcut, List.length_take_of_le (Nat.le_of_lt hn)] at hloop
  -- the terminator is among the bytes that the loop has been over
  obtain ⟨rest', hmem'⟩ : ∃ rest', (mem.take n).map blank ++ blank mem[n] :: mem.drop (n + 1)
      = s.map blank ++ '\x00' :: rest' := by
    have hsplit : (mem.take n).map blank ++ blank mem[n] :: mem.drop (n + 1)
        = (mem.take (n + 1)).map blank ++ mem.drop (n + 1) := by
      rw [← List.take_append_getElem hn, List.map_append, List.append_assoc]
      rfl
    obtain ⟨m, rfl⟩ := Nat.exists_eq_add_of_le hlen
    have htake : mem.take (s.length + m + 1) = s ++ '\x00' :: rest.take m := by
      rw [hrest, Nat.add_assoc, List.take_append, List.take_of_length_le (by omega)]
      simp
    rw [hsplit, htake, List.map_append, List.append_assoc]
    exact ⟨_, rfl⟩
  refine ⟨(mem.take n).map blank ++ blank mem[n] :: mem.drop (n + 1), ?_, ?_⟩
  · rw [trim, hloop, Option.map_some, hmem', cstr_map_blank hnul, strnlen, Nat.min_eq_left]
    exact (List.takeWhile_prefix _).length_le.trans hlen
  · rw [hmem', cstr_map_blank hnul]

/-! ## The longest part without a line break -/

/-- `r` is the longest prefix of `s` that has no line break. -/
structure LongestUnbroken (s r : Str) : Prop where
  isPrefix : r <+: s
  unbroken : ∀ c ∈ r, isBreak c = false
  longest : ∀ r', r' <+: s → (∀ c ∈ r', isBreak c = false) → r' <+: r

theorem longestUnbroken_removeEscape (s : Str) : LongestUnbroken s (removeEscape s) := by
  rw [removeEscape_eq]
  refine ⟨List.takeWhile_prefix _, ?_, ?_⟩
  · intro c hc
    simpa using List.mem_takeWhile_imp hc
  · rintro r' ⟨t, rfl⟩ hr'
    rw [List.takeWhile_append_of_pos fun c hc => by rw [hr' c hc]; rfl]
    exact List.prefix_append ..

/-! ## The calls -/

/-- The calls of `remove_escape`. A token of `__load_cfg` lies in an array of 1024 bytes. -/
inductive TrimCall where
  /-- `__auth`: a token in `buf` -/
  | auth (token : StrPtr)
  /-- `serve_clients`: `buf` -/
  | serve (buf : StrPtr)
  /-- `__load_cfg`: the copy of a token, for the first time -/
  | load (token : StrPtr) (short : token.str.length ≤ 1023)
  /-- `__load_cfg`: the copy of the `DB` token, for the second time -/
  | loadAgain (token : StrPtr) (short : token.str.length ≤ 1023)

namespace TrimCall

/-- The allocation, from the pointer on. Whatever stands behind it, the first call blanks
the line breaks that the second one would find. -/
def mem : TrimCall → Str
  | auth p | serve p => p.mem
  | load p _ => copyString p 1023
  | loadAgain p _ => (copyString p 1023).map blank

/-- The length that is passed: two of the callers count the terminator. -/
def inlen : TrimCall → Nat
  | call@(auth _) | call@(serve _) => (cstr call.mem).length
  | call@(load ..) | call@(loadAgain ..) => strnlen (cstr call.mem) 1023 + 1

/-- The call stays in bounds and leaves the longest part without a line break. -/
def Exact (call : TrimCall) : Prop :=
  ∃ mem' len, trim call.mem call.inlen = some (mem', len) ∧
    LongestUnbroken (cstr call.mem) (cstr mem') ∧ len = (cstr mem').length

/-- The condition: neither caller that counts the terminator, or the second of two calls
when the first one has shortened the string. -/
def StaysInside : TrimCall → Prop
  | auth _ | serve _ => True
  | load .. => False
  | loadAgain p _ => ∃ c ∈ p.str, isBreak c = true

end TrimCall

theorem copyString_eq (p : StrPtr) (hshort : p.str.length ≤ 1023) :
    copyString p 1023 = p.str ++ ['\x00'] := by
  obtain ⟨rest, hrest⟩ := eq_cstr_append p.terminated
  rw [copyString, strnlen, Nat.min_eq_left hshort]
  unfold StrPtr.str
  generalize cstr p.mem = s at hrest ⊢
  rw [hrest, List.take_append, List.take_of_length_le (by omega)]
  simp

theorem TrimCall.nul_mem (call : TrimCall) : '\x00' ∈ call.mem := by
  cases call with
  | auth p => exact p.terminated
  | serve p => exact p.terminated
  | load p hshort => simp [mem, copyString_eq p hshort]
  | loadAgain p hshort => simp [mem, copyString_eq p hshort, blank]

/-- A call is exact when the index it starts from lies in the allocation. -/
theorem TrimCall.exact_iff (call : TrimCall) (hlen : (cstr call.mem).length ≤ call.inlen) :
    call.Exact ↔ call.inlen < call.mem.length := by
  constructor
  · rintro ⟨mem', len, htrim, -⟩
    by_contra hout
    rw [trim, trimLoop_eq_none (Nat.le_of_not_lt hout)] at htrim
    cases htrim
  · intro hin
    obtain ⟨mem', htrim, hstr⟩ := trim_eq call.nul_mem hlen hin
    refine ⟨mem', _, htrim, ?_, by rw [hstr]⟩
    rw [hstr]
    exact longestUnbroken_removeEscape _

/-- With `strlen` the loop starts from the terminator. -/
theorem TrimCall.exact_of_strlen (call : TrimCall) (hn : call.inlen = (cstr call.mem).length) :
    call.Exact := by
  obtain ⟨rest, hrest⟩ := eq_cstr_append call.nul_mem
  have hlen := congrArg List.length hrest
  rw [List.length_append, List.length_cons] at hlen
  rw [call.exact_iff hn.ge]
  omega

/-- With one more it starts behind the copy. -/
theorem TrimCall.not_exact_load (p : StrPtr) (hshort : p.str.length ≤ 1023) :
    ¬ (load p hshort).Exact := by
  have hstr : cstr (load p hshort).mem = p.str := by
    rw [mem, copyString_eq p hshort]
    exact cstr_append_nul (nul_notMem_cstr _) []
  have hn : (load p hshort).inlen = p.str.length + 1 := by
    rw [inlen, hstr, strnlen, Nat.min_eq_left hshort]
  rw [exact_iff _ (by rw [hstr, hn]; exact Nat.le_succ _), hn, mem, copyString_eq p hshort,
    List.length_append, List.length_singleton]
  exact Nat.lt_irrefl _

theorem removeEscape_shorter_iff {s : Str} :
    (removeEscape s).length < s.length ↔ ∃ c ∈ s, isBreak c = true := by
  have hpre := List.takeWhile_prefix (l := s) fun c => !isBreak c
  rw [removeEscape_eq]
  constructor
  · intro hlt
    by_contra hnone
    have hall := List.takeWhile_eq_self_iff.mpr fun c hc =>
      (Bool.not_eq_true' _).mpr (Bool.eq_false_iff.mpr fun hbreak => hnone ⟨c, hc, hbreak⟩)
    rw [hall] at hlt
    exact Nat.lt_irrefl _ hlt
  · rintro ⟨c, hc, hbreak⟩
    by_contra hnot
    have hfree := List.takeWhile_eq_self_iff.mp (hpre.eq_of_length_le (Nat.le_of_not_lt hnot)) c hc
    rw [hbreak] at hfree
    cases hfree

/-- The second trim of a copy starts inside it when the first one has shortened it. -/
theorem TrimCall.exact_loadAgain_iff (p : StrPtr) (hshort : p.str.length ≤ 1023) :
    (loadAgain p hshort).Exact ↔ ∃ c ∈ p.str, isBreak c = true := by
  have hstr : cstr (loadAgain p hshort).mem = removeEscape p.str := by
    rw [mem, copyString_eq p hshort, List.map_append]
    exact cstr_map_blank (nul_notMem_cstr _) []
  have hle : (removeEscape p.str).length ≤ p.str.length := (List.takeWhile_prefix _).length_le
  have hn : (loadAgain p hshort).inlen = (removeEscape p.str).length + 1 := by
    rw [inlen, hstr, strnlen, Nat.min_eq_left (hle.trans hshort)]
  rw [exact_iff _ (by rw [hstr, hn]; exact Nat.le_succ _), hn, mem, copyString_eq p hshort,
    List.length_map, List.length_append, List.length_singleton, Nat.add_lt_add_iff_right]
  exact removeEscape_shorter_iff

/-- **Trimming.** A call of `remove_escape` is exact and stays in bounds if and only if it
passes the length without the terminator, or the copy has been shortened before. -/
theorem trimmed_iff (call : TrimCall) : call.Exact ↔ call.StaysInside := by
  cases call with
  | auth p => exact iff_of_true (TrimCall.exact_of_strlen _ rfl) trivial
  | serve p => exact iff_of_true (TrimCall.exact_of_strlen _ rfl) trivial
  | load p hshort => exact iff_of_false (TrimCall.not_exact_load p hshort) id
  | loadAgain p hshort => exact TrimCall.exact_loadAgain_iff p hshort

/-- The address in the first line of a configuration file, copied and trimmed. -/
theorem not_trimmed : ¬ ∀ call : TrimCall, call.Exact := by
  intro h
  exact TrimCall.not_exact_load ⟨lit "127.0.0.1\n\x00", by decide⟩ (by decide) (h _)

end Thor
