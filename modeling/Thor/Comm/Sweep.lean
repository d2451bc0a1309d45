import Thor.Core.NodeList
import Thor.Comm.Server
import Mathlib.Data.List.GetD

/-!
# A sweep over the sessions (core/sched.c)

The inner loop of `serve_clients` walks down the list of sessions while `__accept` puts
new ones in front of it. The loop ends by a count, not at the end of the list, and both
threads work on that count.

- `Sweep.step`: a turn of the loop, or a login that completes.
- `Sweep.At`: where a sweep is after some turns and some logins.
- `servedOnce_iff`: every session has had one turn when the sweep ends, exactly when
  nobody has logged in meanwhile.
-/

namespace Thor

open CLib

variable {δ : Type}

/-! ## The loop -/

/-- The inner loop of `serve_clients`, in `STATE_RUN`, with the list and the counter. -/
structure Sweep (δ : Type) where
  list : NodeList δ
  /-- `ctrl.actv_client_count` -/
  count : Nat
  i : Nat
  node : Option Nat
  /-- the nodes that have had a turn, the first one first -/
  turns : List Nat

/-- What may happen next. -/
inductive SweepStep (δ : Type) where
  /-- the body of the loop, which leaves the list and the counter alone -/
  | turn
  /-- `insert_node` and `++actv_client_count` of `__accept` -/
  | login (node : Nat) (data : δ)

def SweepStep.isTurn : SweepStep δ → Bool
  | turn => true
  | login .. => false

def SweepStep.isLogin : SweepStep δ → Bool
  | turn => false
  | login .. => true

namespace Sweep

def start (list : NodeList δ) (count : Nat) : Sweep δ := ⟨list, count, 0, list.head, []⟩

/-- The guard of the loop. -/
def GoesOn (s : Sweep δ) : Prop := s.i < s.count ∧ s.node ≠ none

/-- A step, `none` where it cannot be taken. A new node lies at an address that is free,
and `__accept` lets at most `maxCount` sessions in. -/
def step (s : Sweep δ) : SweepStep δ → Option (Sweep δ)
  | .turn =>
    s.node.bind fun node =>
      if s.i < s.count then
        (s.list.getNextNode (some node)).map fun next =>
          { s with i := s.i + 1, node := next, turns := s.turns ++ [node] }
      else none
  | .login node data =>
    if s.count < maxCount ∧ s.list.heap node = none then
      (s.list.insertNode node data).map fun list => { s with list, count := s.count + 1 }
    else none

end Sweep

/-! ## Where a sweep is -/

/-- The session a turn with this number visits: once the list is through, the last one
again. -/
def turnNode (as : List Nat) (z : Nat) (j : Nat) : Nat := as.getD j z

/-- After `t` turns and `k` logins of a sweep over a list that ends with `z`. -/
structure Sweep.At (h₀ : DHeap Nat δ) (l : List (Nat × δ)) (z t k : Nat) (s : Sweep δ) : Prop where
  list : ∃ new : List (Nat × δ), new.length = k ∧ s.list.Represents h₀ (new ++ l)
  count : s.count = l.length + k
  i : s.i = t
  node : s.node = some (turnNode (l.map Prod.fst) z t)
  turns : s.turns = (List.range t).map (turnNode (l.map Prod.fst) z)
  bound : t ≤ l.length + k

variable {h₀ : DHeap Nat δ} {l : List (Nat × δ)} {z t k : Nat} {s s' : Sweep δ}

/-- Behind the session visited stands the next one to visit. -/
theorem next_turnNode {m : NodeList δ} {new : List (Nat × δ)} (hm : m.Represents h₀ (new ++ l))
    (hz : (l.map Prod.fst).getLast? = some z) (t : Nat) :
    m.getNextNode (some (turnNode (l.map Prod.fst) z t))
      = some (some (turnNode (l.map Prod.fst) z (t + 1))) := by
  by_cases ht : t < l.length
  · obtain ⟨l₁, p, l₂, rfl, rfl⟩ : ∃ l₁ p l₂, l = l₁ ++ p :: l₂ ∧ l₁.length = t :=
      ⟨l.take t, l[t], l.drop (t + 1), (List.take_append_drop t l).symm.trans (by simp),
        List.length_take_of_le (Nat.le_of_lt ht)⟩
    have hhere : turnNode ((l₁ ++ p :: l₂).map Prod.fst) z l₁.length = p.1 := by simp [turnNode]
    have hnext : turnNode ((l₁ ++ p :: l₂).map Prod.fst) z (l₁.length + 1)
        = (l₂.map Prod.fst).headD z := by
      cases l₂ <;> simp [turnNode]
    -- inside the list the walk goes on to the next session
    rw [← List.append_assoc] at hm
    rw [hhere, hnext, hm.getNextNode]
    cases l₂ with
    | cons q l₂ => rfl
    | nil =>
      -- the session visited is the last one
      have hlast : p.1 = z := by simpa using hz
      simp [hlast]
  · obtain ⟨l₁, p, rfl⟩ : ∃ l₁ p, l = l₁ ++ [p] := by
      rcases List.eq_nil_or_concat' l with rfl | h
      · cases hz
      · exact h
    have hlast : p.1 = z := by simpa using hz
    -- at its end it stays where it is, since `get_next_node` does
    have hpast (j : Nat) (hj : (l₁ ++ [p]).length ≤ j) :
        turnNode ((l₁ ++ [p]).map Prod.fst) z j = z := by
      unfold turnNode
      exact List.getD_eq_default _ _ (by rwa [List.length_map])
    rw [← List.append_assoc] at hm
    rw [hpast t (by omega), hpast (t + 1) (by omega), ← hlast, hm.getNextNode]
    rfl

theorem Sweep.At.start {list : NodeList δ} (hlist : list.Represents h₀ l)
    (hz : (l.map Prod.fst).getLast? = some z) : Sweep.At h₀ l z 0 0 (.start list l.length) where
  list := ⟨[], rfl, hlist⟩
  count := rfl
  i := rfl
  node := by
    cases l with
    | nil => cases hz
    | cons p l => exact hlist.head
  turns := rfl
  bound := Nat.zero_le _

/-- One step. -/
theorem Sweep.At.step (hs : s.At h₀ l z t k) (hz : (l.map Prod.fst).getLast? = some z)
    {act : SweepStep δ} (h : s.step act = some s') :
    s'.At h₀ l z (t + if act.isTurn then 1 else 0) (k + if act.isLogin then 1 else 0) := by
  obtain ⟨new, hlen, hlist⟩ := hs.list
  cases act with
  | turn =>
    obtain ⟨node, hnode, h⟩ := Option.bind_eq_some_iff.mp h
    obtain rfl := Option.some.inj (hs.node.symm.trans hnode)
    split at h
    · next hlt =>
      rw [next_turnNode hlist hz] at h
      obtain rfl := Option.some.inj h
      rw [hs.i, hs.count] at hlt
      refine ⟨⟨new, hlen, hlist⟩, hs.count, congrArg (· + 1) hs.i, rfl, ?_, hlt⟩
      show s.turns ++ [_] = (List.range (t + 1)).map _
      rw [List.range_succ, List.map_append, hs.turns]
      rfl
    · cases h
  | login node data =>
    simp only [Sweep.step] at h
    split at h
    · next henabled =>
      have hnew : node ∉ (new ++ l).map Prod.fst :=
        fun hmem => hlist.linked.allocated hmem henabled.2
      obtain ⟨list, hinsert, hlist'⟩ :=
        hlist.insertNode ((hlist.others node hnew).symm.trans henabled.2) hnew data
      rw [hinsert] at h
      obtain rfl := Option.some.inj h
      refine ⟨⟨(node, data) :: new, congrArg (· + 1) hlen, hlist'⟩, ?_, hs.i, hs.node, hs.turns,
        Nat.le_succ_of_le hs.bound⟩
      show s.count + 1 = l.length + (k + 1)
      rw [hs.count, Nat.add_assoc]
    · cases h

/-- Any number of steps. -/
theorem Sweep.At.run (hs : s.At h₀ l z t k) (hz : (l.map Prod.fst).getLast? = some z)
    {acts : List (SweepStep δ)} (h : runSteps Sweep.step s acts = some s') :
    s'.At h₀ l z (t + acts.countP SweepStep.isTurn) (k + acts.countP SweepStep.isLogin) := by
  induction acts generalizing s t k with
  | nil =>
    obtain rfl := Option.some.inj h
    exact hs
  | cons act acts ih =>
    obtain ⟨s₁, hstep, hrest⟩ := runSteps_cons h
    have hend := ih (hs.step hz hstep) hrest
    rw [List.countP_cons, List.countP_cons, Nat.add_comm (acts.countP _),
      Nat.add_comm (acts.countP SweepStep.isLogin), ← Nat.add_assoc, ← Nat.add_assoc]
    exact hend

/-- A sweep ends when it has made a turn for each session counted. -/
theorem Sweep.At.goesOn_iff (hs : s.At h₀ l z t k) : s.GoesOn ↔ t ≠ l.length + k := by
  have hbound := hs.bound
  unfold Sweep.GoesOn
  rw [hs.i, hs.count, hs.node]
  constructor
  · rintro ⟨hlt, -⟩
    omega
  · intro hne
    exact ⟨by omega, Option.some_ne_none _⟩

/-- It does end, when nobody else logs in. -/
theorem Sweep.At.ends (hs : s.At h₀ l z t k) (hz : (l.map Prod.fst).getLast? = some z) :
    ∃ s', runSteps Sweep.step s (List.replicate (l.length + k - t) .turn) = some s' ∧
      ¬ s'.GoesOn := by
  -- by induction on the turns that are left
  obtain ⟨n, hn⟩ : ∃ n, l.length + k - t = n := ⟨_, rfl⟩
  rw [hn]
  induction n generalizing s t with
  | zero =>
    have hbound := hs.bound
    exact ⟨s, rfl, fun hon => hs.goesOn_iff.mp hon (by omega)⟩
  | succ n ih =>
    obtain ⟨new, -, hlist⟩ := hs.list
    have hlt : s.i < s.count := by
      rw [hs.i, hs.count]
      omega
    have hstep : s.step .turn = some { s with
        i := s.i + 1
        node := some (turnNode (l.map Prod.fst) z (t + 1))
        turns := s.turns ++ [turnNode (l.map Prod.fst) z t] } := by
      unfold Sweep.step
      dsimp only
      rw [hs.node, Option.bind_some, if_pos hlt, next_turnNode hlist hz]
      rfl
    obtain ⟨s', hrun, hend⟩ := ih (hs.step hz hstep) (show l.length + k - (t + 1) = n by omega)
    refine ⟨s', ?_, hend⟩
    rw [List.replicate_succ, runSteps, hstep]
    exact hrun

/-! ## Turns of each session -/

/-- The turns of a whole sweep: the list, then its last session over and over. -/
theorem map_turnNode {as : List Nat} (z k : Nat) :
    (List.range (as.length + k)).map (turnNode as z) = as ++ List.replicate k z := by
  refine List.ext_getElem (by simp) fun j hj hj' => ?_
  rw [List.getElem_map, List.getElem_range, turnNode]
  by_cases hlt : j < as.length
  · rw [List.getElem_append_left hlt, List.getD_eq_getElem _ _ hlt]
  · rw [List.getElem_append_right (Nat.le_of_not_lt hlt), List.getElem_replicate,
      List.getD_eq_default _ _ (Nat.le_of_not_lt hlt)]

/-- **One turn each.** When a sweep ends, every session that was in the list at its start
has had exactly one turn if and only if there was none, or nobody has logged in. -/
theorem servedOnce_iff {list : NodeList δ} (hlist : list.Represents h₀ l)
    {acts : List (SweepStep δ)}
    (hrun : runSteps Sweep.step (.start list l.length) acts = some s) (hend : ¬ s.GoesOn) :
    (∀ a ∈ l.map Prod.fst, s.turns.count a = 1) ↔ l = [] ∨ ∀ act ∈ acts, act.isLogin = false := by
  cases hz : (l.map Prod.fst).getLast? with
  | none =>
    obtain rfl : l = [] := by simpa using hz
    exact iff_of_true (fun a ha => absurd ha List.not_mem_nil) (.inl rfl)
  | some z =>
    have hmem : z ∈ l.map Prod.fst := List.mem_of_getLast? hz
    have hne : l ≠ [] := by
      rintro rfl
      cases hz
    have hs := (Sweep.At.start hlist hz).run hz hrun
    rw [Nat.zero_add, Nat.zero_add] at hs
    have hall := Decidable.not_not.mp fun hne => hend (hs.goesOn_iff.mpr hne)
    -- the sweep over the list, and one turn of the last session for every login
    have hturns : s.turns = l.map Prod.fst ++
        List.replicate (acts.countP SweepStep.isLogin) z := by
      rw [hs.turns, hall, ← List.length_map Prod.fst, map_turnNode]
    have hnone : (∀ act ∈ acts, act.isLogin = false) ↔ acts.countP SweepStep.isLogin = 0 := by
      rw [List.countP_eq_zero]
      exact forall₂_congr fun act _ => by rw [Bool.not_eq_true]
    have honce (a : Nat) (ha : a ∈ l.map Prod.fst) : (l.map Prod.fst).count a = 1 :=
      List.count_eq_one_of_mem hlist.nodup ha
    rw [hturns, hnone]
    constructor
    · intro h
      have hlast := h z hmem
      rw [List.count_append, honce z hmem, List.count_replicate_self] at hlast
      exact .inr (by omega)
    · rintro (hnil | hzero) a ha
      · exact absurd hnil hne
      · rw [hzero, List.replicate_zero, List.append_nil, honce a ha]

/-! ## Two sessions -/

/-- Two sessions in the list. -/
def twoSessions : NodeList Nat where
  heap a := if a = 16 then some ⟨2, none, some 48⟩ else if a = 48 then some ⟨1, some 16, none⟩ else none
  head := some 16

theorem twoSessions_represents : twoSessions.Represents (fun _ => none) [(16, 2), (48, 1)] where
  linked := ⟨rfl, rfl, trivial⟩
  head := rfl
  nodup := by decide
  unused _ _ := rfl
  others a ha := by
    have hne : a ≠ 16 ∧ a ≠ 48 := by simpa using ha
    exact (if_neg hne.1).trans (if_neg hne.2)

/-- Nobody logs in. -/
theorem servedOnce_two : ∃ s, runSteps Sweep.step (.start twoSessions 2) [.turn, .turn] = some s ∧
    ∀ a ∈ [16, 48], s.turns.count a = 1 := by
  obtain ⟨s, hs, hend⟩ := (Sweep.At.start twoSessions_represents rfl).ends rfl
  exact ⟨s, hs, (servedOnce_iff twoSessions_represents hs hend).mpr (.inr (by decide))⟩

/-- Somebody logs in between the two turns, and the second session is served twice. -/
theorem not_servedOnce :
    ¬ ∀ (h₀ : DHeap Nat Nat) (list : NodeList Nat) (l : List (Nat × Nat))
      (acts : List (SweepStep Nat)) (s : Sweep Nat), list.Represents h₀ l →
      runSteps Sweep.step (.start list l.length) acts = some s → ¬ s.GoesOn →
      ∀ a ∈ l.map Prod.fst, s.turns.count a = 1 := by
  intro h
  have hturns : (runSteps Sweep.step (.start twoSessions 2) [.turn, .login 80 3, .turn, .turn]).map
      (fun s => (s.turns, s.i, s.count)) = some ([16, 48, 48], 3, 3) := by decide
  obtain ⟨s, hs, hat⟩ := Option.map_eq_some_iff.mp hturns
  obtain ⟨hturns, hat⟩ := Prod.mk.inj hat
  obtain ⟨hi, hcount⟩ := Prod.mk.inj hat
  have honce := h _ _ _ _ s twoSessions_represents hs
    (fun hon => absurd hon.1 (by rw [hi, hcount]; decide)) 48 (by decide)
  rw [hturns] at honce
  exact absurd honce (by decide)

end Thor
