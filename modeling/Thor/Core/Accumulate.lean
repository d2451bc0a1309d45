import Thor.CLib.Fgets
import Thor.CLib.Mem
import Thor.Core.Frames
import Thor.Rpc.Clight
import Mathlib.Data.List.GetD
import Mathlib.Data.Nat.Find

/-!
# Text put together in a loop (core/sched.c, rpc/clight.c)

Three loops append what they read to an array, and go on for as long as the other side
likes. Here the reads may deliver any bytes, so that a NUL in one of them counts.

- `readLoopMem`: the read loop of a turn, over the bytes of `_buf`; `readLoop` is what it
  does when no NUL is delivered (`readLoopMem_iff`).
- `shown`: the string in `_buf` after some reads, from what each of them delivered.
- `inside_iff`: which input the arrays have room for.
-/

namespace Thor

open CLib Prog

/-! ## The loops -/

/-- `char _buf[8000] = {};` -/
def freshBuf : Str := List.replicate 8000 '\x00'

/-- The `do`-`while` loop with `buf`, `_buf` and the reads to come: what `buf` holds when it
ends or waits, `none` when a `strcat` has no room. -/
def readLoopMem (buf mem : Str) : List Read → Option Str
  | .data bytes :: rs =>
    (strcat (mb 15) buf (cstr (overwrite bytes mem))).bind fun buf' =>
      if strstr (cstr (overwrite bytes mem)) marker then some buf'
      else readLoopMem buf' (overwrite bytes mem) rs
  | _ => some buf

/-- The strings that `fgets(&buf[0], 999, fp)` leaves, for all that a child prints. -/
def pieces (out : Str) : List Str := (fgetsAll 999 out).map cstr

/-! ## The string in `_buf` -/

/-- The byte at an index after some reads, the newest first: the last read that gets there
has put it. -/
def byteAt : List Str → Nat → Char
  | [], _ => '\x00'
  | bytes :: older, i => bytes[i]?.getD (byteAt older i)

theorem byteAt_far {reads : List Str} {i : Nat} (h : ∀ bytes ∈ reads, bytes.length ≤ i) :
    byteAt reads i = '\x00' := by
  induction reads with
  | nil => rfl
  | cons bytes older ih =>
    rw [byteAt, List.getElem?_eq_none (h bytes (List.mem_cons_self ..)), Option.getD_none]
    exact ih fun b hb => h b (List.mem_cons_of_mem _ hb)

theorem exists_nul (reads : List Str) : ∃ i, byteAt reads i = '\x00' :=
  ⟨reads.flatten.length, byteAt_far fun _ hb => (List.sublist_flatten_of_mem hb).length_le⟩

/-- Where the string ends. -/
def reach (reads : List Str) : Nat := Nat.find (exists_nul reads)

/-- The string in `_buf` after some reads. -/
def shown (reads : List Str) : Str := (List.range (reach reads)).map (byteAt reads)

theorem length_shown (reads : List Str) : (shown reads).length = reach reads := by
  rw [shown, List.length_map, List.length_range]

theorem getD_length_cstr (mem : Str) : mem.getD (cstr mem).length '\x00' = '\x00' := by
  induction mem with
  | nil => rfl
  | cons c mem ih =>
    by_cases hc : c = '\x00'
    · subst hc
      rfl
    · have hcons : cstr (c :: mem) = c :: cstr mem := by simp [cstr, hc]
      rw [hcons]
      exact ih

theorem getD_of_lt_cstr {mem : Str} {i : Nat} (h : i < (cstr mem).length) :
    mem.getD i '\x00' = (cstr mem)[i] := by
  have hpre : cstr mem <+: mem := List.takeWhile_prefix _
  rw [List.getD_eq_getElem _ _ (h.trans_le hpre.length_le), hpre.getElem h]

/-- What the bytes of an array hold, index by index, is the string in it. -/
theorem cstr_eq_shown {mem : Str} {reads : List Str}
    (h : ∀ i, mem.getD i '\x00' = byteAt reads i) : cstr mem = shown reads := by
  have hreach : reach reads = (cstr mem).length := by
    rw [reach, Nat.find_eq_iff]
    refine ⟨(h _).symm.trans (getD_length_cstr mem), fun i hi hnul => ?_⟩
    rw [← h, getD_of_lt_cstr hi] at hnul
    exact nul_notMem_cstr mem (hnul ▸ List.getElem_mem hi)
  refine List.ext_getElem (by rw [length_shown, hreach]) fun i hi hi' => ?_
  rw [← getD_of_lt_cstr hi, h]
  simp [shown]

theorem getD_overwrite {bytes mem : Str} {reads : List Str}
    (h : ∀ i, mem.getD i '\x00' = byteAt reads i) (i : Nat) :
    (overwrite bytes mem).getD i '\x00' = byteAt (bytes :: reads) i := by
  rw [byteAt, overwrite]
  by_cases hi : i < bytes.length
  · rw [List.getD_append _ _ _ _ hi, List.getD_eq_getElem _ _ hi, List.getElem?_eq_getElem hi,
      Option.getD_some]
  · have hle := Nat.le_of_not_lt hi
    rw [List.getD_append_right _ _ _ _ hle, List.getElem?_eq_none hle, Option.getD_none, ← h,
      List.getD_eq_getElem?_getD, List.getD_eq_getElem?_getD, List.getElem?_drop,
      Nat.add_sub_cancel' hle]

/-- Of reads without a NUL it reaches as far as the longest of them. -/
theorem reach_of_plain {reads : List Str} (h : ∀ bytes ∈ reads, '\x00' ∉ bytes) :
    reach reads = (reads.map List.length).foldr max 0 := by
  have hbyte (i : Nat) : byteAt reads i = '\x00' ↔ (reads.map List.length).foldr max 0 ≤ i := by
    induction reads with
    | nil => exact iff_of_true rfl (Nat.zero_le i)
    | cons bytes older ih =>
      have hrest := ih fun b hb => h b (List.mem_cons_of_mem _ hb)
      have hplain := h bytes (List.mem_cons_self ..)
      rw [byteAt, List.map_cons, List.foldr_cons, Nat.max_le, ← hrest]
      by_cases hi : i < bytes.length
      · rw [List.getElem?_eq_getElem hi, Option.getD_some]
        exact iff_of_false (fun heq => hplain (heq ▸ List.getElem_mem hi))
          fun hle => Nat.lt_irrefl _ (hi.trans_le hle.1)
      · rw [List.getElem?_eq_none (Nat.le_of_not_lt hi), Option.getD_none]
        exact (and_iff_right (Nat.le_of_not_lt hi)).symm
  -- the first index that no read has got to
  rw [reach, Nat.find_eq_iff, hbyte]
  exact ⟨Nat.le_refl _, fun i hi => by rw [hbyte]; exact Nat.not_le_of_lt hi⟩

/-! ## What the loops append -/

/-- The lengths of the string in `_buf` after the reads of a turn, together. -/
def turnLength (older : List Str) : List Read → Nat
  | .data bytes :: rs =>
    reach (bytes :: older) +
      if strstr (shown (bytes :: older)) marker then 0 else turnLength (bytes :: older) rs
  | _ => 0

/-- The loop goes on while there is room for all of it. -/
theorem readLoopMem_iff_length {rs : List Read} {buf mem : Str} {older : List Str}
    (hmem : ∀ i, mem.getD i '\x00' = byteAt older i) (hbuf : buf.length < mb 15) :
    readLoopMem buf mem rs ≠ none ↔ buf.length + turnLength older rs < mb 15 := by
  induction rs generalizing buf mem older with
  | nil => exact iff_of_true (Option.some_ne_none _) hbuf
  | cons r rs ih =>
    cases r with
    | timeout => exact iff_of_true (Option.some_ne_none _) hbuf
    | closed => exact iff_of_true (Option.some_ne_none _) hbuf
    | data bytes =>
      have hshown := cstr_eq_shown (@getD_overwrite bytes mem older hmem)
      have hlen := length_shown (bytes :: older)
      rw [readLoopMem, turnLength, hshown, ← hlen, ← Nat.add_assoc, ← List.length_append]
      -- `strcat` fails at the first read that takes the sum over the size of the array
      by_cases hfit : (buf ++ shown (bytes :: older)).length < mb 15
      · rw [strcat_eq_some.mpr ⟨rfl, hfit⟩, Option.bind_some]
        by_cases hmark : strstr (shown (bytes :: older)) marker = true
        · rw [if_pos hmark, if_pos hmark]
          exact iff_of_true (Option.some_ne_none _) hfit
        · rw [if_neg hmark, if_neg hmark]
          exact ih (getD_overwrite hmem) hfit
      · rw [strcat_eq_none.mpr hfit]
        exact iff_of_false (fun h => h rfl) fun hlt => hfit (by omega)

/-- A turn starts with two arrays that are cleared. -/
theorem readLoopMem_fresh_iff (rs : List Read) :
    readLoopMem [] freshBuf rs ≠ none ↔ turnLength [] rs < mb 15 := by
  have hfresh (i : Nat) : freshBuf.getD i '\x00' = byteAt [] i := by
    rw [freshBuf, List.getD_eq_getElem?_getD, List.getElem?_replicate]
    split <;> rfl
  have hloop := @readLoopMem_iff_length rs [] freshBuf [] hfresh (by decide)
  rwa [List.length_nil, Nat.zero_add] at hloop

/-- The output of a child without the bytes behind a NUL, up to the end of the piece. -/
def printed (out : Str) : Str := (pieces out).flatten

/-- Without a NUL that is all of it. -/
theorem printed_of_plain {out : Str} (h : '\x00' ∉ out) : printed out = out := by
  have hall : (fgetsAll 999 out).map cstr = fgetsAll 999 out := by
    refine (List.map_congr_left fun piece hp => ?_).trans (List.map_id _)
    refine List.takeWhile_eq_self_iff.mpr fun c hc => ?_
    rw [bne_iff_ne]
    rintro rfl
    rw [← @fgetsAll_flatten 999 (by decide) out] at h
    exact h (List.mem_flatten_of_mem hp hc)
  rw [printed, pieces, hall, fgetsAll_flatten (by decide)]

theorem readOutput_eq (chunks : List Str) :
    readOutput chunks =
      if chunks.flatten.length < respsz then .ok chunks.flatten else .error .overflow := by
  unfold readOutput
  have hempty : ([] : Str).length < respsz := by decide
  -- the induction is about what has been appended so far
  revert hempty
  rw [← List.nil_append chunks.flatten]
  generalize ([] : Str) = acc
  induction chunks generalizing acc with
  | nil =>
    intro hacc
    rw [List.flatten_nil, List.append_nil, if_pos hacc]
    rfl
  | cons c chunks ih =>
    intro hacc
    rw [List.foldlM_cons, List.flatten_cons, ← List.append_assoc]
    by_cases hfit : (acc ++ c).length < respsz
    · rw [strcat_eq_some.mpr ⟨rfl, hfit⟩]
      exact ih _ hfit
    · rw [strcat_eq_none.mpr hfit, if_neg]
      · rfl
      · intro hlt
        rw [List.length_append] at hlt
        omega

theorem readOutput_iff (chunks : List Str) :
    (∃ resp, readOutput chunks = .ok resp) ↔ chunks.flatten.length < respsz := by
  rw [readOutput_eq]
  constructor
  · rintro ⟨resp, hresp⟩
    by_contra hlong
    rw [if_neg hlong] at hresp
    cases hresp
  · intro hfit
    exact ⟨_, if_pos hfit⟩

/-! ## The other models of the loops -/

theorem cstr_append_replicate {s : Str} (hs : '\x00' ∉ s) (k : Nat) :
    cstr (s ++ List.replicate k '\x00') = s := by
  cases k with
  | zero =>
    rw [List.replicate_zero, List.append_nil]
    refine List.takeWhile_eq_self_iff.mpr fun c hc => ?_
    rw [bne_iff_ne]
    rintro rfl
    exact hs hc
  | succ k => exact cstr_append_nul hs _

theorem overwrite_append_replicate (c old : Str) (k : Nat) :
    overwrite c (old ++ List.replicate k '\x00')
      = recvInto c old ++ List.replicate (k - (c.length - old.length)) '\x00' := by
  rw [overwrite, recvInto, List.drop_append, List.drop_replicate, List.append_assoc]

/-- When no NUL is delivered, the loop over the strings fails where this one does. -/
theorem readLoopMem_iff {rs : List Read} (hplain : ∀ c, .data c ∈ rs → '\x00' ∉ c)
    (bytes buf : Str) {old : Str} (hold : '\x00' ∉ old) (k : Nat) :
    readLoopMem buf (old ++ List.replicate k '\x00') rs = none ↔
      (readLoop bytes buf old rs).1 = .overflow := by
  induction rs generalizing bytes buf old k with
  | nil => exact iff_of_false (Option.some_ne_none _) (by simp [readLoop])
  | cons r rs ih =>
    cases r with
    | timeout => exact iff_of_false (Option.some_ne_none _) (by simp [readLoop])
    | closed => exact iff_of_false (Option.some_ne_none _) (by simp [readLoop])
    | data c =>
      have hc := hplain c (List.mem_cons_self ..)
      have hnew : '\x00' ∉ recvInto c old := by
        intro h
        rcases List.mem_append.mp h with h | h
        · exact hc h
        · exact hold (List.mem_of_mem_drop h)
      rw [readLoopMem, readLoop, overwrite_append_replicate, cstr_append_replicate hnew]
      cases hcat : strcat (mb 15) buf (recvInto c old) with
      | none => exact iff_of_true rfl rfl
      | some buf' =>
        rw [Option.bind_some]
        dsimp only
        by_cases hmark : strstr (recvInto c old) marker = true
        · rw [if_pos hmark, if_pos hmark]
          exact iff_of_false (Option.some_ne_none _) (by simp)
        · rw [if_neg hmark, if_neg hmark]
          exact ih (fun c' hc' => hplain c' (List.mem_cons_of_mem _ hc')) _ _ hnew _

/-- A child that prints too much takes the process down with it. -/
theorem runProcess_overflow (y : Sys) {line out : Str} {w : World} (halloc : y.alloc w.tick = true)
    (hchild : (y.popen (w.tick + 1) line w.srv.db).1 = some (pieces out))
    (hlong : respsz ≤ (printed out).length) :
    ((runProcess y line).run w).val = .error .overflow := by
  have hfail : readOutput (pieces out) = .error .overflow := by
    rw [readOutput_eq]
    exact if_neg (Nat.not_lt_of_le hlong)
  unfold runProcess
  rw [run_bind_of_ok (a := w.tick) rfl]
  dsimp only
  rw [if_pos halloc, run_bind_of_ok (a := ()) rfl]
  dsimp only
  rw [run_bind_of_ok (a := w.tick + 1) rfl]
  dsimp only
  rw [run_bind_of_ok (a := w.srv.db) rfl]
  dsimp only
  rw [run_bind_of_ok (a := ()) rfl, hchild]
  dsimp only
  rw [hfail]
  rfl

/-! ## Which input there is room for -/

/-- The three loops, each with what the other side sends. -/
inductive Accumulation where
  /-- a turn of `serve_clients`: the results of its reads -/
  | serveClients (reads : List Read)
  /-- `__exec_rpc_cmd`: all that the child prints -/
  | execRpcCmd (out : Str)
  /-- `__open_shell`: all that the child prints -/
  | openShell (out : Str)

namespace Accumulation

/-- No `strcat` goes past the end of its array. -/
def Inside : Accumulation → Prop
  | serveClients reads => readLoopMem [] freshBuf reads ≠ none
  | execRpcCmd out | openShell out => ∃ resp, readOutput (pieces out) = .ok resp

/-- The lengths add up to less than the array. -/
def Short : Accumulation → Prop
  | serveClients reads => turnLength [] reads < 15000000
  | execRpcCmd out | openShell out => (printed out).length < 10000000

end Accumulation

/-- **Accumulating loops.** A loop stays inside its array if and only if the strings that
it reads are together shorter than the array. -/
theorem inside_iff (l : Accumulation) : l.Inside ↔ l.Short := by
  cases l with
  | serveClients reads => exact readLoopMem_fresh_iff reads
  | execRpcCmd out => exact readOutput_iff (pieces out)
  | openShell out => exact readOutput_iff (pieces out)

/-! ## A client that never ends its command -/

theorem shown_replicate {bytes : Str} (hplain : '\x00' ∉ bytes) (k : Nat) :
    shown (bytes :: List.replicate k bytes) = bytes := by
  have hsame (i : Nat) : bytes.getD i '\x00' = byteAt (bytes :: List.replicate k bytes) i := by
    rw [byteAt, List.getD_eq_getElem?_getD]
    by_cases hi : i < bytes.length
    · rw [List.getElem?_eq_getElem hi]
      rfl
    · have hle := Nat.le_of_not_lt hi
      rw [List.getElem?_eq_none hle, Option.getD_none, Option.getD_none, byteAt_far]
      intro b hb
      rwa [List.eq_of_mem_replicate hb]
  have hcstr := cstr_append_replicate hplain 0
  rw [List.replicate_zero, List.append_nil] at hcstr
  rw [← cstr_eq_shown hsame, hcstr]

/-- Reads that all deliver the same, without the marker. -/
theorem turnLength_replicate {bytes : Str} (hplain : '\x00' ∉ bytes)
    (hmark : strstr bytes marker = false) (n k : Nat) :
    turnLength (List.replicate k bytes) (List.replicate n (.data bytes)) = n * bytes.length := by
  induction n generalizing k with
  | zero =>
    rw [Nat.zero_mul]
    rfl
  | succ n ih =>
    have hrest := ih (k + 1)
    rw [List.replicate_succ] at hrest
    rw [List.replicate_succ, turnLength, ← length_shown, shown_replicate hplain, hmark,
      if_neg Bool.false_ne_true, hrest, Nat.succ_mul, Nat.add_comm]

/-- The peer sends one letter again and again. -/
theorem not_inside : ¬ ∀ l : Accumulation, l.Inside := by
  intro h
  have hplain : '\x00' ∉ List.replicate 7999 'x' :=
    fun hmem => absurd (List.eq_of_mem_replicate hmem) (by decide)
  have hmark : strstr (List.replicate 7999 'x') marker = false := by
    rw [strstr_eq_false]
    intro hinfix
    have hmem : '<' ∈ List.replicate 7999 'x' := hinfix.subset (by decide)
    exact absurd (List.eq_of_mem_replicate hmem) (by decide)
  have hinside := h (.serveClients (List.replicate 1876 (.data (List.replicate 7999 'x'))))
  have hsum := (readLoopMem_fresh_iff _).mp hinside
  have hlength := turnLength_replicate hplain hmark 1876 0
  rw [List.replicate_zero] at hlength
  rw [hlength, List.length_replicate] at hsum
  exact absurd hsum (by decide)

end Thor
