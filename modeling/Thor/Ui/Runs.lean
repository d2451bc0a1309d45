import Thor.CLib.Runs
import Thor.Ui.Penalty

/-!
# The penalty by runs (ui/qr_generator.c)

`getPenaltyScore` goes over a line once. It counts the modules of the current run, and keeps
the lengths of the last seven runs in an array. What it adds up is a sum over the runs of the
line:

- `longRuns`: a run of five modules or more.
- `finders`: runs in the proportions of a finder, in the line between white borders.
- `LineRuns`: the runs of a line, however they were found, and `LineRuns.rate`, what they add.
- `getPenaltyScore_byRuns`: the penalty of a symbol from the runs of its rows and columns.
-/

namespace Thor

open CLib

/-- A run of five modules adds three, and each module more adds one. -/
def longRuns (rs : List (Bool × Nat)) : Nat :=
  total (rs.map fun r => if 5 ≤ r.2 then r.2 - 2 else 0)

/-- The runs 1:1:3:1:1 between two others, one as long as four of the unit and the other as
long as one. It counts twice if both are as long as four. -/
def finderAt : List Nat → Nat
  | front :: n :: b :: c :: d :: e :: back :: _ =>
    if b = n ∧ c = n * 3 ∧ d = n ∧ e = n then
      (if n * 4 ≤ front ∧ n ≤ back then 1 else 0) + (if n * 4 ≤ back ∧ n ≤ front then 1 else 0)
    else 0
  | _ => 0

/-- The finders that begin with a white run. -/
def finders : List (Bool × Nat) → Nat
  | [] => 0
  | r :: rs => (if r.1 then 0 else finderAt ((r :: rs).map Prod.snd)) + finders rs

/-- The modules of a line that were seen, the latest first. -/
def lineRead (line : Nat → Bool) (k : Nat) : List Bool := ((List.range k).map line).reverse

/-- A line between its white borders, which are as wide as the symbol. -/
def betweenBorders (s : Nat) (line : Nat → Bool) : List Bool :=
  List.replicate s false ++ (lineRead line s ++ List.replicate s false)

/-- The runs of a line, alone and between its borders. -/
structure LineRuns (s : Nat) (line : Nat → Bool) where
  inner : List (Bool × Nat)
  bordered : List (Bool × Nat)
  inner_isRuns : IsRuns (lineRead line s) inner
  bordered_isRuns : IsRuns (betweenBorders s line) bordered

def LineRuns.rate {s : Nat} {line : Nat → Bool} (r : LineRuns s line) : Nat :=
  longRuns r.inner + finders r.bordered * penaltyN3

theorem lineRead_succ (line : Nat → Bool) (k : Nat) :
    lineRead line (k + 1) = line k :: lineRead line k := by
  rw [lineRead, List.range_succ, List.map_append, List.reverse_append]
  rfl

theorem longRuns_cons (r : Bool × Nat) (rs : List (Bool × Nat)) :
    longRuns (r :: rs) = (if 5 ≤ r.2 then r.2 - 2 else 0) + longRuns rs := rfl

/-! ## The history -/

/-- The array of the last seven runs, where a run that is not there has no length. -/
def historyOf (lens : List Nat) : List Nat := (lens ++ List.replicate 7 0).take 7

theorem getD_historyOf {lens : List Nat} {i : Nat} (hi : i < 7) :
    (historyOf lens).getD i 0 = lens.getD i 0 := by
  rw [historyOf, List.getD_eq_getElem?_getD, List.getElem?_take_of_lt hi, List.getElem?_append]
  split
  · rw [List.getD_eq_getElem?_getD]
  · rw [List.getElem?_replicate, List.getD_eq_default _ _ (by omega)]
    split <;> rfl

theorem add_historyOf {lens : List Nat} (hpos : ∀ n ∈ lens, 0 < n) (run s : Nat) :
    finderPenaltyAddHistory run (historyOf lens) s =
      historyOf ((run + if lens = [] then s else 0) :: lens) := by
  rw [finderPenaltyAddHistory, getD_historyOf (by omega), historyOf, List.take_take]
  cases lens with
  | nil => rfl
  | cons n lens =>
    have hn : n ≠ 0 := Nat.ne_of_gt (hpos n (.head lens))
    simp [hn, historyOf]

theorem patternsOf_historyOf {lens : List Nat} (hpos : ∀ n ∈ lens, 0 < n) :
    patternsOf (historyOf lens) = finderAt lens := by
  simp only [patternsOf, getD_historyOf (show 0 < 7 by omega),
    getD_historyOf (show 1 < 7 by omega), getD_historyOf (show 2 < 7 by omega),
    getD_historyOf (show 3 < 7 by omega), getD_historyOf (show 4 < 7 by omega),
    getD_historyOf (show 5 < 7 by omega), getD_historyOf (show 6 < 7 by omega)]
  -- without a seventh run the last of the seven lengths is zero
  rcases lens with _ | ⟨front, _ | ⟨n, _ | ⟨b, _ | ⟨c, _ | ⟨d, _ | ⟨e, _ | ⟨back, lens⟩⟩⟩⟩⟩⟩⟩
  case cons.cons.cons.cons.cons.cons.cons =>
    have hn : 0 < n := hpos n (by simp)
    simp only [List.getD_cons_zero, List.getD_cons_succ, finderAt]
    by_cases hcore : b = n ∧ c = n * 3 ∧ d = n ∧ e = n
    · rw [if_pos hcore]
      simp [hcore, hn]
    · rw [if_neg hcore, if_neg (fun h => hcore h.1.2), if_neg (fun h => hcore h.1.2)]
  all_goals
    simp only [List.getD_cons_zero, List.getD_cons_succ, List.getD_nil, finderAt]
    split_ifs <;> omega

/-! ## One line -/

/-- The state of the loop against the runs of what it saw. `closed` are the runs that ended,
the first of them with its border. -/
structure SeesRuns (s : Nat) (line : Nat → Bool) (k : Nat) (st : LineState)
    (closed : List (Bool × Nat)) : Prop where
  current : runs (lineRead line k ++ List.replicate s false) =
    (st.runColor, st.run + if closed = [] then s else 0) :: closed
  history : st.runHistory = historyOf (closed.map Prod.snd)
  inner : (st.run = 0 ∧ runs (lineRead line k) = []) ∨
    (0 < st.run ∧ ∃ rs, runs (lineRead line k) = (st.runColor, st.run) :: rs)
  result : st.result = longRuns (runs (lineRead line k)) + finders closed * penaltyN3

namespace SeesRuns

variable {s k : Nat} {line : Nat → Bool} {st : LineState} {closed : List (Bool × Nat)}

theorem pos (h : SeesRuns s line k st closed) :
    0 < st.run + (if closed = [] then s else 0) ∧ ∀ n ∈ closed.map Prod.snd, 0 < n := by
  have hruns := (isRuns_runs (lineRead line k ++ List.replicate s false)).pos
  rw [h.current] at hruns
  refine ⟨hruns _ (.head _), ?_⟩
  rintro n hn
  obtain ⟨r, hr, rfl⟩ := List.mem_map.1 hn
  exact hruns r (List.mem_cons_of_mem _ hr)

/-- The history when the current run ends. -/
theorem add (h : SeesRuns s line k st closed) :
    finderPenaltyAddHistory st.run st.runHistory s =
      historyOf ((st.run + if closed = [] then s else 0) :: closed.map Prod.snd) := by
  rw [h.history, add_historyOf h.pos.2]
  simp only [List.map_eq_nil_iff]

theorem patterns (h : SeesRuns s line k st closed) :
    patternsOf (finderPenaltyAddHistory st.run st.runHistory s) =
      finderAt ((st.run + if closed = [] then s else 0) :: closed.map Prod.snd) := by
  rw [h.add, patternsOf_historyOf (List.forall_mem_cons.2 h.pos)]

/-- A module of the colour of the current run makes it longer. -/
theorem same (h : SeesRuns s line k st closed) (hcolor : line k = st.runColor) :
    SeesRuns s line (k + 1) (lineNext s (line k) st) closed := by
  have hnext : lineNext s (line k) st =
      ⟨if st.run + 1 = 5 then st.result + penaltyN1
        else if st.run + 1 > 5 then st.result + 1 else st.result,
        st.runColor, st.run + 1, st.runHistory⟩ := if_pos hcolor
  rw [hnext]
  refine ⟨?_, h.history, Or.inr ⟨Nat.succ_pos _, ?_⟩, ?_⟩
  · rw [lineRead_succ, List.cons_append, runs, h.current, hcolor, extendRuns_same]
    rw [Nat.add_right_comm]
  · obtain ⟨hrun, hruns⟩ | ⟨-, rs, hruns⟩ := h.inner
    · rw [lineRead_succ, runs, hruns, hcolor, hrun]
      exact ⟨[], rfl⟩
    · rw [lineRead_succ, runs, hruns, hcolor, extendRuns_same]
      exact ⟨rs, rfl⟩
  · have hresult := h.result
    obtain ⟨hrun, hruns⟩ | ⟨hrun, rs, hruns⟩ := h.inner
    · rw [hruns] at hresult
      rw [lineRead_succ, runs, hruns, hrun]
      exact hresult
    · rw [hruns, longRuns_cons] at hresult
      rw [lineRead_succ, runs, hruns, hcolor, extendRuns_same, longRuns_cons]
      simp only [penaltyN1] at hresult ⊢
      split_ifs at hresult ⊢ <;> omega

/-- A module of the other colour ends the current run. -/
theorem other (h : SeesRuns s line k st closed) (hcolor : line k ≠ st.runColor) :
    SeesRuns s line (k + 1) (lineNext s (line k) st)
      ((st.runColor, st.run + if closed = [] then s else 0) :: closed) := by
  have hnext : lineNext s (line k) st =
      ⟨st.result + (if !st.runColor then
          patternsOf (finderPenaltyAddHistory st.run st.runHistory s) else 0) * penaltyN3,
        line k, 1, finderPenaltyAddHistory st.run st.runHistory s⟩ := if_neg hcolor
  rw [hnext]
  refine ⟨?_, h.add, Or.inr ⟨Nat.one_pos, ?_⟩, ?_⟩
  · rw [lineRead_succ, List.cons_append, runs, h.current, extendRuns_other hcolor]
    rfl
  · obtain ⟨-, hruns⟩ | ⟨-, rs, hruns⟩ := h.inner
    · rw [lineRead_succ, runs, hruns]
      exact ⟨[], rfl⟩
    · rw [lineRead_succ, runs, hruns, extendRuns_other hcolor]
      exact ⟨_, rfl⟩
  · have hlong : longRuns (runs (lineRead line (k + 1))) = longRuns (runs (lineRead line k)) := by
      obtain ⟨-, hruns⟩ | ⟨-, rs, hruns⟩ := h.inner
      · rw [lineRead_succ, runs, hruns]
        rfl
      · rw [lineRead_succ, runs, hruns, extendRuns_other hcolor, longRuns_cons]
        exact Nat.zero_add _
    rw [hlong]
    show st.result + _ = _
    rw [h.result, h.patterns, finders, List.map_cons]
    cases st.runColor
    · simp only [penaltyN3, Bool.not_false, if_true, Bool.false_eq_true, if_false]
      omega
    · simp

end SeesRuns

theorem seesRuns {s : Nat} (hs : 0 < s) (line : Nat → Bool) (k : Nat) :
    ∃ closed, SeesRuns s line k (lineState s line 0 k) closed := by
  induction k with
  | zero =>
    refine ⟨[], ?_, rfl, Or.inl ⟨rfl, rfl⟩, rfl⟩
    obtain ⟨n, rfl⟩ : ∃ n, s = n + 1 := ⟨s - 1, by omega⟩
    show runs (List.replicate (n + 1) false) = [(false, 0 + (n + 1))]
    have hborder := runs_replicate_append (a := false) (l := []) rfl (fun r hr => nomatch hr) n
    rw [List.append_nil] at hborder
    rw [hborder, Nat.zero_add]
    rfl
  | succ k ih =>
    obtain ⟨closed, h⟩ := ih
    by_cases hcolor : line k = (lineState s line 0 k).runColor
    · exact ⟨closed, h.same hcolor⟩
    · exact ⟨_, h.other hcolor⟩

/-- The finders of a line with its borders, from the state behind its last module. -/
theorem SeesRuns.finders_eq {s : Nat} (hs : 0 < s) {line : Nat → Bool} {st : LineState}
    {closed : List (Bool × Nat)} (h : SeesRuns s line s st closed) :
    finders (runs (betweenBorders s line)) =
      patternsOf (terminatedHistory st.runColor st.run st.runHistory s) + finders closed := by
  obtain ⟨hpos, hpos'⟩ := h.pos
  have hcurrent := h.current
  rw [betweenBorders, terminatedHistory]
  cases hcolor : st.runColor
  · -- the border makes the last run longer
    rw [hcolor] at hcurrent
    rw [runs_replicate_append_same hcurrent, if_neg Bool.false_ne_true, h.history,
      add_historyOf hpos', patternsOf_historyOf]
    · rw [finders, if_neg Bool.false_ne_true, List.map_cons]
      simp only [List.map_eq_nil_iff, Nat.add_right_comm]
    · refine List.forall_mem_cons.2 ⟨?_, hpos'⟩
      omega
  · -- the border is a run of its own
    rw [hcolor] at hcurrent
    obtain ⟨n, rfl⟩ : ∃ n, s = n + 1 := ⟨s - 1, by omega⟩
    rw [runs_replicate_append hcurrent (by simp) n, if_pos rfl, h.add,
      add_historyOf (List.forall_mem_cons.2 h.pos), patternsOf_historyOf]
    · rw [finders, finders, if_neg Bool.false_ne_true, if_pos rfl, Nat.zero_add]
      simp
    · simp only [List.forall_mem_cons]
      exact ⟨by omega, hpos, hpos'⟩

theorem lineScore_eq {s : Nat} (hs : 0 < s) {line : Nat → Bool} (r : LineRuns s line) :
    lineScore s line = r.rate := by
  obtain ⟨closed, h⟩ := seesRuns hs line s
  rw [lineScore, LineRuns.rate, isRuns_iff.1 r.inner_isRuns, isRuns_iff.1 r.bordered_isRuns,
    h.finders_eq hs]
  show (lineState s line 0 s).result + _ = _
  rw [h.result]
  simp only [penaltyN3]
  omega

/-! ## The whole symbol -/

/-- The runs of a line as `runs` finds them. -/
def LineRuns.found (s : Nat) (line : Nat → Bool) : LineRuns s line :=
  ⟨runs (lineRead line s), runs (betweenBorders s line), isRuns_runs _, isRuns_runs _⟩

/-- The penalty from the runs of the rows and columns, the blocks and the balance. -/
theorem getPenaltyScore_byRuns {q : Bytes} {s : Nat} (hq : IsSymbol s q)
    (rows : ∀ y, LineRuns s fun x => pixelAt s q (x, y))
    (columns : ∀ x, LineRuns s fun y => pixelAt s q (x, y)) :
    getPenaltyScore q = some
      (((total ((List.range s).map fun y => (rows y).rate) +
        total ((List.range s).map fun x => (columns x).rate) +
        (rowByRow (s - 1)).countP (sameBlock (pixelAt s q)) * penaltyN2 : Nat) : Int) +
        imbalance s ((rowByRow s).countP (pixelAt s q)) * penaltyN4) := by
  have hs : 0 < s := Nat.lt_of_lt_of_le (by omega) hq.le_size
  rw [getPenaltyScore_eq hq, penaltyOf]
  simp only [lineScore_eq hs (rows _), lineScore_eq hs (columns _)]

/-- White modules, but for the first row: it begins as the middle of a finder does. -/
def finderRow : Bytes := ⟨21 :: 0x5D :: List.replicate 55 0⟩

theorem isSymbol_finderRow : IsSymbol 21 finderRow := ⟨by decide, by decide, by decide, by decide⟩

/-- Its black modules. -/
def finderRowBlack (p : Nat × Nat) : Bool := decide (p.2 = 0 ∧ p.1 ∈ [0, 2, 3, 4, 6])

theorem pixelAt_finderRow : pixelAt 21 finderRow = finderRowBlack := by
  have hall : ∀ y < 21, ∀ x < 21, pixelAt 21 finderRow (x, y) = finderRowBlack (x, y) := by
    decide +kernel
  funext p
  by_cases hin : p.1 < 21 ∧ p.2 < 21
  · exact hall p.2 hin.2 p.1 hin.1
  · rw [pixelAt, if_neg hin]
    refine (decide_eq_false ?_).symm
    simp only [List.mem_cons, List.not_mem_nil, or_false]
    omega

/-- The first row is rated for a pattern with white on either side, and for the long white run
behind it. -/
theorem getPenaltyScore_byRuns_finderRow :
    (LineRuns.found 21 fun x => finderRowBlack (x, 0)).rate = 2 * penaltyN3 + (penaltyN1 + 9) ∧
      getPenaltyScore finderRow = some 2135 := by
  have hscore : ∀ q f, IsSymbol 21 q → pixelAt 21 q = f → getPenaltyScore q = some
      (((total ((List.range 21).map fun y => (LineRuns.found 21 fun x => f (x, y)).rate) +
        total ((List.range 21).map fun x => (LineRuns.found 21 fun y => f (x, y)).rate) +
        (rowByRow (21 - 1)).countP (sameBlock f) * penaltyN2 : Nat) : Int) +
        imbalance 21 ((rowByRow 21).countP f) * penaltyN4) := by
    rintro q f hq rfl
    exact getPenaltyScore_byRuns hq (fun _ => .found 21 _) fun _ => .found 21 _
  have hrows : total ((List.range 21).map fun y =>
      (LineRuns.found 21 fun x => finderRowBlack (x, y)).rate) = 472 := by decide +kernel
  have hcolumns : total ((List.range 21).map fun x =>
      (LineRuns.found 21 fun y => finderRowBlack (x, y)).rate) = 394 := by decide +kernel
  have hblocks : (rowByRow (21 - 1)).countP (sameBlock finderRowBlack) = 393 := by decide +kernel
  have hblack : (rowByRow 21).countP finderRowBlack = 5 := by decide +kernel
  refine ⟨by decide +kernel, (hscore _ _ isSymbol_finderRow pixelAt_finderRow).trans ?_⟩
  rw [hrows, hcolumns, hblocks, hblack]
  decide

end Thor
