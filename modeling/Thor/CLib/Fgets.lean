import Thor.CLib.Str

/-!
# `fgets`

A stream is what is still to be read of it.

- `fgets`: one call, with the size of the array it fills.
- `fgetsAll`: the calls of a loop that ends with the first `NULL`.
-/

namespace CLib

/-- The bytes of a line, its end among them, of which at most `n` are read; and the rest. -/
def readLine : Nat → Str → Str × Str
  | 0, s => ([], s)
  | _ + 1, [] => ([], [])
  | n + 1, c :: s =>
    if c = '\n' then ([c], s) else (c :: (readLine n s).1, (readLine n s).2)

/-- `fgets(buf, size, stream)`: what it writes, `none` for `NULL`, and the stream after it. -/
def fgets (size : Nat) (s : Str) : Option Str × Str :=
  if s = [] then (none, s) else (some (readLine (size - 1) s).1, (readLine (size - 1) s).2)

/-- The first `fuel` calls of `while (fgets(...) != NULL)`. -/
def fgetsLoop (size : Nat) : Nat → Str → List Str
  | 0, _ => []
  | fuel + 1, s =>
    match fgets size s with
    | (none, _) => []
    | (some line, rest) => line :: fgetsLoop size fuel rest

/-- What the calls write until the stream is empty. -/
def fgetsAll (size : Nat) (s : Str) : List Str := fgetsLoop size s.length s

/-- A line that the array has room for is read at once. -/
theorem readLine_line {l : Str} (hl : '\n' ∉ l) {n : Nat} (hn : l.length < n) (rest : Str) :
    readLine n (l ++ '\n' :: rest) = (l ++ ['\n'], rest) := by
  induction l generalizing n with
  | nil =>
    cases n with
    | zero => cases hn
    | succ n => rfl
  | cons c l ih =>
    have hc : c ≠ '\n' := fun h => hl (h ▸ List.mem_cons_self ..)
    cases n with
    | zero => cases hn
    | succ n =>
      have hrest := ih (fun h => hl (List.mem_cons_of_mem c h)) (Nat.lt_of_succ_lt_succ hn)
      rw [List.cons_append, readLine, if_neg hc, hrest]
      rfl

theorem fgets_line {l : Str} (hl : '\n' ∉ l) {size : Nat} (hsize : l.length + 1 < size)
    (rest : Str) : fgets size (l ++ '\n' :: rest) = (some (l ++ ['\n']), rest) := by
  rw [fgets, if_neg (by simp), readLine_line hl (by omega)]

/-- Nothing is lost between two calls. -/
theorem readLine_append : ∀ (n : Nat) (s : Str), (readLine n s).1 ++ (readLine n s).2 = s
  | 0, _ => rfl
  | _ + 1, [] => rfl
  | n + 1, c :: s => by
    by_cases hc : c = '\n'
    · rw [readLine, if_pos hc]
      rfl
    · rw [readLine, if_neg hc, List.cons_append, readLine_append n s]

theorem readLine_ne_nil {n : Nat} (hn : 0 < n) {s : Str} (hs : s ≠ []) :
    (readLine n s).1 ≠ [] := by
  cases n with
  | zero => cases hn
  | succ n =>
    cases s with
    | nil => exact absurd rfl hs
    | cons c s =>
      by_cases hc : c = '\n'
      · rw [readLine, if_pos hc]
        exact List.cons_ne_nil _ _
      · rw [readLine, if_neg hc]
        exact List.cons_ne_nil _ _

/-- The calls together read the stream. -/
theorem fgetsAll_flatten {size : Nat} (hsize : 1 < size) (s : Str) :
    (fgetsAll size s).flatten = s := by
  -- each call takes a byte at least, so that the length of the stream is fuel enough
  suffices h : ∀ fuel (s : Str), s.length ≤ fuel → (fgetsLoop size fuel s).flatten = s from
    h _ s (Nat.le_refl _)
  intro fuel
  induction fuel with
  | zero =>
    intro s hs
    rw [List.length_eq_zero_iff.mp (Nat.le_zero.mp hs)]
    rfl
  | succ fuel ih =>
    intro s hs
    by_cases hnil : s = []
    · subst hnil
      rfl
    · have happ := readLine_append (size - 1) s
      have hlen := congrArg List.length happ
      have hpos := List.length_pos_iff.mpr (readLine_ne_nil (Nat.sub_pos_of_lt hsize) hnil)
      rw [List.length_append] at hlen
      rw [fgetsLoop, fgets, if_neg hnil]
      dsimp only
      rw [List.flatten_cons, ih _ (by omega), happ]

end CLib
