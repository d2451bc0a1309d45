import Thor.Ui.Drawing

/-!
# The penalty of a symbol (ui/qr_generator.c)

`getPenaltyScore` rates a symbol, so that the encoder can take the mask with the lowest rate:
long runs of one colour, runs that look like a finder, blocks of one colour, and the balance
of black and white.

- `lineModule`, `linePenalty`: the body of the loops over rows and over columns, which are
  the same but for the coordinates.
- `penaltyOf`: the rate as a function of the modules. The assertion about the history of
  runs never fails, and `getPenaltyScore` returns this (`getPenaltyScore_gives`).
-/

namespace Thor

open CLib

def penaltyN1 : Nat := 3

def penaltyN2 : Nat := 3

def penaltyN3 : Nat := 40

def penaltyN4 : Nat := 10

/-- The last seven runs, the latest first; the first run of a line gets the white border. -/
def finderPenaltyAddHistory (currentRunLength : Nat) (runHistory : List Nat) (qrsize : Nat) :
    List Nat :=
  (if runHistory.getD 0 0 = 0 then currentRunLength + qrsize else currentRunLength) ::
    runHistory.take 6

def finderPenaltyCountPatterns (runHistory : List Nat) (qrsize : Nat) : Option Nat := do
  let n := runHistory.getD 1 0
  assert (n ≤ qrsize * 3)
  let core := n > 0 ∧ runHistory.getD 2 0 = n ∧ runHistory.getD 3 0 = n * 3 ∧
    runHistory.getD 4 0 = n ∧ runHistory.getD 5 0 = n
  return (if core ∧ runHistory.getD 0 0 ≥ n * 4 ∧ runHistory.getD 6 0 ≥ n then 1 else 0) +
    (if core ∧ runHistory.getD 6 0 ≥ n * 4 ∧ runHistory.getD 0 0 ≥ n then 1 else 0)

/-- The history behind the end of a line, where the white border begins. -/
def terminatedHistory (currentRunColor : Bool) (currentRunLength : Nat) (runHistory : List Nat)
    (qrsize : Nat) : List Nat :=
  if currentRunColor then
    finderPenaltyAddHistory (0 + qrsize)
      (finderPenaltyAddHistory currentRunLength runHistory qrsize) qrsize
  else finderPenaltyAddHistory (currentRunLength + qrsize) runHistory qrsize

def finderPenaltyTerminateAndCount (currentRunColor : Bool) (currentRunLength : Nat)
    (runHistory : List Nat) (qrsize : Nat) : Option Nat :=
  finderPenaltyCountPatterns (terminatedHistory currentRunColor currentRunLength runHistory qrsize)
    qrsize

/-- The variables of the loop over a line. -/
structure LineState where
  result : Nat
  runColor : Bool
  run : Nat
  runHistory : List Nat

/-- The next module of a line. -/
def lineModule (qrsize : Nat) (color : Bool) (s : LineState) : Option LineState :=
  if color = s.runColor then
    let run := s.run + 1
    let result :=
      if run = 5 then s.result + penaltyN1 else if run > 5 then s.result + 1 else s.result
    some ⟨result, s.runColor, run, s.runHistory⟩
  else do
    let runHistory := finderPenaltyAddHistory s.run s.runHistory qrsize
    let patterns ← (if !s.runColor then finderPenaltyCountPatterns runHistory qrsize else some 0)
    return ⟨s.result + patterns * penaltyN3, color, 1, runHistory⟩

/-- A line, whose modules are at `place 0`, `place 1` and so on. -/
def linePenalty (qrcode : Bytes) (qrsize : Nat) (place : Nat → Nat × Nat) (result : Nat) :
    Option Nat := do
  let s ← loop qrsize (fun k s => do
    let color ← getModule qrcode (place k).1 (place k).2
    lineModule qrsize color s) ⟨result, false, 0, List.replicate 7 0⟩
  let patterns ← finderPenaltyTerminateAndCount s.runColor s.run s.runHistory qrsize
  return s.result + patterns * penaltyN3

def getPenaltyScore (qrcode : Bytes) : Option Int := do
  let qrsize ← getSize qrcode
  let result ← loop qrsize (fun y result =>
    linePenalty qrcode qrsize (fun x => (x, y)) result) 0
  let result ← loop qrsize (fun x result =>
    linePenalty qrcode qrsize (fun y => (x, y)) result) result
  let result ← loop (qrsize - 1) (fun y result =>
    loop (qrsize - 1) (fun x result => do
      let color ← getModule qrcode x y
      let right ← getModule qrcode (x + 1) y
      let below ← getModule qrcode x (y + 1)
      let opposite ← getModule qrcode (x + 1) (y + 1)
      return if color = right ∧ color = below ∧ color = opposite then result + penaltyN2
        else result) result) result
  let black ← loop qrsize (fun y black =>
    loop qrsize (fun x black => do
      let color ← getModule qrcode x y
      return if color then black + 1 else black) black) (0 : Nat)
  let total := qrsize * qrsize
  let k : Int :=
    (((black : Int) * 20 - total * 10).natAbs + total - 1) / total - 1
  return result + k * penaltyN4

/-! ## A line -/

/-- The patterns that the runs of a history make. -/
def patternsOf (runHistory : List Nat) : Nat :=
  let n := runHistory.getD 1 0
  let core := n > 0 ∧ runHistory.getD 2 0 = n ∧ runHistory.getD 3 0 = n * 3 ∧
    runHistory.getD 4 0 = n ∧ runHistory.getD 5 0 = n
  (if core ∧ runHistory.getD 0 0 ≥ n * 4 ∧ runHistory.getD 6 0 ≥ n then 1 else 0) +
    (if core ∧ runHistory.getD 6 0 ≥ n * 4 ∧ runHistory.getD 0 0 ≥ n then 1 else 0)

theorem patternsOf_le (runHistory : List Nat) : patternsOf runHistory ≤ 2 := by
  simp only [patternsOf]
  split <;> split <;> omega

/-- No run of a history is longer than a line with both of its borders. -/
def HistoryFits (bound : Nat) (runHistory : List Nat) : Prop := ∀ n ∈ runHistory, n ≤ bound

theorem HistoryFits.getD_le {bound : Nat} {h : List Nat} (hfits : HistoryFits bound h) (i : Nat) :
    h.getD i 0 ≤ bound := by
  by_cases hi : i < h.length
  · rw [List.getD_eq_getElem _ _ hi]
    exact hfits _ (List.getElem_mem hi)
  · rw [List.getD_eq_default _ _ (by omega)]
    exact Nat.zero_le bound

theorem HistoryFits.mono {bound bound' : Nat} {h : List Nat} (hfits : HistoryFits bound h)
    (hle : bound ≤ bound') : HistoryFits bound' h :=
  fun n hn => Nat.le_trans (hfits n hn) hle

theorem HistoryFits.add {bound run s : Nat} {h : List Nat} (hfits : HistoryFits bound h)
    (hrun : run + s ≤ bound) : HistoryFits bound (finderPenaltyAddHistory run h s) := by
  intro n hn
  rcases List.mem_cons.1 hn with rfl | hn
  · split <;> omega
  · exact hfits n (List.mem_of_mem_take hn)

theorem countPatterns_eq {h : List Nat} {s : Nat} (hfits : HistoryFits (s * 3) h) :
    finderPenaltyCountPatterns h s = some (patternsOf h) := by
  rw [finderPenaltyCountPatterns]
  show (assert (h.getD 1 0 ≤ s * 3) >>= fun _ => _) = _
  rw [assert_bind (hfits.getD_le 1)]
  rfl

/-- What `lineModule` makes of a state, with what it adds to the result. -/
def lineNext (s : Nat) (color : Bool) (st : LineState) : LineState :=
  if color = st.runColor then
    ⟨if st.run + 1 = 5 then st.result + penaltyN1
      else if st.run + 1 > 5 then st.result + 1 else st.result,
      st.runColor, st.run + 1, st.runHistory⟩
  else
    ⟨st.result + (if !st.runColor then patternsOf (finderPenaltyAddHistory st.run st.runHistory s)
        else 0) * penaltyN3, color, 1, finderPenaltyAddHistory st.run st.runHistory s⟩

/-- The state in front of module `k` of a line. -/
def lineState (s : Nat) (line : Nat → Bool) (result : Nat) : Nat → LineState
  | 0 => ⟨result, false, 0, List.replicate 7 0⟩
  | k + 1 => lineNext s (line k) (lineState s line result k)

/-- What a line adds to the result. -/
def lineScore (s : Nat) (line : Nat → Bool) : Nat :=
  let st := lineState s line 0 s
  st.result + patternsOf (terminatedHistory st.runColor st.run st.runHistory s) * penaltyN3

/-- The runs of a line are no longer than what was seen of it. -/
theorem lineState_fits (s : Nat) (line : Nat → Bool) (result k : Nat) (hk : k ≤ s) :
    (lineState s line result k).run ≤ k ∧
      HistoryFits (2 * s) (lineState s line result k).runHistory := by
  induction k with
  | zero => exact ⟨Nat.le_refl 0, fun n hn => by simp [List.eq_of_mem_replicate hn]⟩
  | succ k ih =>
    obtain ⟨hrun, hfits⟩ := ih (by omega)
    rw [lineState, lineNext]
    split
    · exact ⟨Nat.succ_le_succ hrun, hfits⟩
    · exact ⟨Nat.le_add_left 1 k, hfits.add (by omega)⟩

theorem terminatedHistory_fits {s run : Nat} {color : Bool} {h : List Nat} (hrun : run ≤ s)
    (hfits : HistoryFits (2 * s) h) : HistoryFits (s * 3) (terminatedHistory color run h s) := by
  have hfits' : HistoryFits (s * 3) h := hfits.mono (by omega)
  rw [terminatedHistory]
  split
  · exact (hfits'.add (by omega)).add (by omega)
  · exact hfits'.add (by omega)

/-- The result so far is added to, and decides nothing. -/
theorem lineState_result (s : Nat) (line : Nat → Bool) (result k : Nat) :
    lineState s line result k =
      { lineState s line 0 k with result := result + (lineState s line 0 k).result } := by
  induction k with
  | zero => rfl
  | succ k ih =>
    rw [lineState, ih, lineState, lineNext, lineNext]
    dsimp only
    split_ifs <;> simp only [LineState.mk.injEq, and_true] <;> omega

theorem lineModule_eq {s : Nat} {st : LineState} (hrun : st.run ≤ s)
    (hfits : HistoryFits (2 * s) st.runHistory) (color : Bool) :
    lineModule s color st = some (lineNext s color st) := by
  have hadded : HistoryFits (s * 3) (finderPenaltyAddHistory st.run st.runHistory s) :=
    (hfits.mono (by omega)).add (by omega)
  rw [lineModule, lineNext]
  split
  · rfl
  · show ((if !st.runColor then finderPenaltyCountPatterns _ s else some 0) >>= fun patterns =>
      some (LineState.mk (st.result + patterns * penaltyN3) color 1 _)) = _
    rw [countPatterns_eq hadded]
    split <;> rfl

theorem linePenalty_eq {q : Bytes} {s : Nat} (hq : IsSymbol s q) {place : Nat → Nat × Nat}
    (hplace : ∀ k < s, (place k).1 < s ∧ (place k).2 < s) (result : Nat) :
    linePenalty q s place result =
      some (result + lineScore s fun k => pixelAt s q (place k)) := by
  have hrun : Gives (loop s (fun k st => getModule q (place k).1 (place k).2 >>= fun color =>
      lineModule s color st) ⟨result, false, 0, List.replicate 7 0⟩)
      fun st => st = lineState s (fun k => pixelAt s q (place k)) result s := by
    refine loop_gives (fun k st => st = lineState s (fun k => pixelAt s q (place k)) result k)
      rfl ?_
    rintro k hk st rfl
    obtain ⟨hrun, hfits⟩ :=
      lineState_fits s (fun k => pixelAt s q (place k)) result k (by omega)
    rw [getModule_eq hq (hplace k hk).1 (hplace k hk).2, some_bind,
      lineModule_eq (by omega) hfits]
    exact gives_some rfl
  obtain ⟨st, hst, rfl⟩ := hrun
  obtain ⟨hrun, hfits⟩ := lineState_fits s (fun k => pixelAt s q (place k)) result s (Nat.le_refl s)
  rw [linePenalty, hst, some_bind, finderPenaltyTerminateAndCount,
    countPatterns_eq (terminatedHistory_fits hrun hfits), some_bind, lineState_result, lineScore]
  show some _ = some _
  dsimp only
  rw [Nat.add_assoc]

/-! ## The whole symbol -/

/-- A block of four modules of one colour, by its upper left module. -/
def sameBlock (f : Nat × Nat → Bool) (p : Nat × Nat) : Bool :=
  f p = f (p.1 + 1, p.2) ∧ f p = f (p.1, p.2 + 1) ∧ f p = f (p.1 + 1, p.2 + 1)

/-- The steps of the balance of black and white away from one half. -/
def imbalance (s black : Nat) : Int :=
  (((black : Int) * 20 - (s * s : Nat) * 10).natAbs + s * s - 1) / (s * s : Nat) - 1

/-- The penalty as a function of the modules. -/
def penaltyOf (s : Nat) (f : Nat × Nat → Bool) : Int :=
  ((total ((List.range s).map fun y => lineScore s fun x => f (x, y)) +
    total ((List.range s).map fun x => lineScore s fun y => f (x, y)) +
    (rowByRow (s - 1)).countP (sameBlock f) * penaltyN2 : Nat) : Int) +
    imbalance s ((rowByRow s).countP f) * penaltyN4

theorem getPenaltyScore_eq {q : Bytes} {s : Nat} (hq : IsSymbol s q) :
    getPenaltyScore q = some (penaltyOf s (pixelAt s q)) := by
  have h21 := hq.le_size
  have hrows : ∀ r, loop s (fun y result => linePenalty q s (fun x => (x, y)) result) r =
      some (r + total ((List.range s).map fun y => lineScore s fun x => pixelAt s q (x, y))) := by
    intro r
    exact loop_total fun y hy r => linePenalty_eq hq (fun k hk => ⟨hk, hy⟩) r
  have hcolumns : ∀ r, loop s (fun x result => linePenalty q s (fun y => (x, y)) result) r =
      some (r + total ((List.range s).map fun x => lineScore s fun y => pixelAt s q (x, y))) := by
    intro r
    exact loop_total fun x hx r => linePenalty_eq hq (fun k hk => ⟨hx, hk⟩) r
  have hblocks : ∀ r, loop (s - 1) (fun y result => loop (s - 1) (fun x result => do
      let color ← getModule q x y
      let right ← getModule q (x + 1) y
      let below ← getModule q x (y + 1)
      let opposite ← getModule q (x + 1) (y + 1)
      return if color = right ∧ color = below ∧ color = opposite then result + penaltyN2
        else result) result) r =
      some (r + (rowByRow (s - 1)).countP (sameBlock (pixelAt s q)) * penaltyN2) := by
    intro r
    rw [loop_rowByRow (fun result p => do
      let color ← getModule q p.1 p.2
      let right ← getModule q (p.1 + 1) p.2
      let below ← getModule q p.1 (p.2 + 1)
      let opposite ← getModule q (p.1 + 1) (p.2 + 1)
      return if color = right ∧ color = below ∧ color = opposite then result + penaltyN2
        else result)]
    refine foldlM_countP fun p hp r => ?_
    obtain ⟨hx, hy⟩ := mem_rowByRow.1 hp
    rw [getModule_eq hq (by omega) (by omega), some_bind, getModule_eq hq (by omega) (by omega),
      some_bind, getModule_eq hq (by omega) (by omega), some_bind,
      getModule_eq hq (by omega) (by omega), some_bind]
    simp only [sameBlock, decide_eq_true_eq]
    rfl
  have hblack : loop s (fun y black => loop s (fun x black => do
      let color ← getModule q x y
      return if color then black + 1 else black) black) 0 =
      some ((rowByRow s).countP (pixelAt s q)) := by
    rw [loop_rowByRow (fun black p => do
      let color ← getModule q p.1 p.2
      return if color then black + 1 else black)]
    rw [foldlM_countP (p := pixelAt s q) (c := 1) fun p hp r => ?_, Nat.zero_add, Nat.mul_one]
    obtain ⟨hx, hy⟩ := mem_rowByRow.1 hp
    rw [getModule_eq hq hx hy, some_bind]
    rfl
  rw [getPenaltyScore, getSize_eq hq, some_bind, hrows, some_bind, hcolumns, some_bind, hblocks,
    some_bind, hblack, some_bind, penaltyOf, Nat.zero_add]
  rfl

/-! ## Bounds -/

theorem lineState_result_le (s : Nat) (line : Nat → Bool) (k : Nat) :
    (lineState s line 0 k).result ≤ 80 * k := by
  induction k with
  | zero => exact Nat.le_refl 0
  | succ k ih =>
    rw [lineState, lineNext]
    split
    · simp only [penaltyN1]
      split_ifs <;> omega
    · have hle := patternsOf_le
        (finderPenaltyAddHistory (lineState s line 0 k).run (lineState s line 0 k).runHistory s)
      simp only [penaltyN3]
      split <;> omega

theorem lineScore_le (s : Nat) (line : Nat → Bool) : lineScore s line ≤ 80 * (s + 1) := by
  have hline := lineState_result_le s line s
  have hle := patternsOf_le (terminatedHistory (lineState s line 0 s).runColor
    (lineState s line 0 s).run (lineState s line 0 s).runHistory s)
  simp only [lineScore, penaltyN3]
  omega

theorem length_rowByRow (s : Nat) : (rowByRow s).length = s * s := by
  rw [rowByRow, List.length_flatMap]
  simp

/-- No symbol is rated as high as the bound of the type. -/
theorem penaltyOf_lt {s : Nat} (hs : s ≤ 177) (h1 : 1 ≤ s) (f : Nat × Nat → Bool) :
    penaltyOf s f < 2 ^ 30 := by
  have hrows : total ((List.range s).map fun y => lineScore s fun x => f (x, y)) ≤
      s * (80 * (s + 1)) := total_map_range_le fun y _ => lineScore_le s _
  have hcolumns : total ((List.range s).map fun x => lineScore s fun y => f (x, y)) ≤
      s * (80 * (s + 1)) := total_map_range_le fun x _ => lineScore_le s _
  have hblocks := List.countP_le_length (p := sameBlock f) (l := rowByRow (s - 1))
  have hblack := List.countP_le_length (p := f) (l := rowByRow s)
  rw [length_rowByRow] at hblocks hblack
  have hline : s * (80 * (s + 1)) ≤ 177 * (80 * 178) := by
    refine Nat.mul_le_mul hs ?_
    omega
  have hsq : (s - 1) * (s - 1) ≤ 177 * 177 := Nat.mul_le_mul (by omega) (by omega)
  have hsq' : s * s ≤ 177 * 177 := Nat.mul_le_mul hs hs
  have hbalance : imbalance s ((rowByRow s).countP f) ≤ 177 * 177 * 11 := by
    rw [imbalance]
    have hdiv : ((((rowByRow s).countP f : Int) * 20 - (s * s : Nat) * 10).natAbs + (s : Int) * s -
        1) / (s * s : Nat) ≤ (((rowByRow s).countP f : Int) * 20 - (s * s : Nat) * 10).natAbs +
          (s : Int) * s - 1 := by
      refine Int.ediv_le_self _ ?_
      have : (1 : Int) ≤ s * s := by exact_mod_cast Nat.mul_le_mul h1 h1
      omega
    have hcast : (s : Int) * s ≤ 177 * 177 := by exact_mod_cast hsq'
    omega
  simp only [penaltyOf, penaltyN2, penaltyN4]
  omega

end Thor
