import Mathlib.Data.List.Basic

/-!
# Partial steps and their runs

A system takes a step when its step function returns a state.

- `runSteps`: the state after a list of steps.
- `AllSteps`, `EveryState`, `EveryPair`: a condition on every step taken, a property of
  every state reached, a relation between every state reached and every later one.
- `EveryState.of_allSteps`, `EveryPair.of_allSteps`: invariants and relations kept by the
  steps that meet a condition. `everyState_iff_allSteps`: a condition that is exact.
- `recorded`: a system with a record of its run, for conditions on what has happened.
- `answers`: a system that answers every request. `answers_of_simulation`: one that
  simulates another gives the same answers in every run.
-/

namespace CLib

variable {σ α γ : Type}

def runSteps (step : σ → α → Option σ) : σ → List α → Option σ
  | s, [] => some s
  | s, a :: as => (step s a).bind fun s' => runSteps step s' as

/-- Every step taken meets `C` in the state before it. -/
def AllSteps (step : σ → α → Option σ) (C : σ → α → Prop) : σ → List α → Prop
  | _, [] => True
  | s, a :: as => ∀ s', step s a = some s' → C s a ∧ AllSteps step C s' as

/-- Every state reached has the property `P`, the first one included. -/
def EveryState (step : σ → α → Option σ) (P : σ → Prop) : σ → List α → Prop
  | s, [] => P s
  | s, a :: as => P s ∧ ∀ s', step s a = some s' → EveryState step P s' as

/-- `R` relates every state reached to itself and to all later ones. -/
def EveryPair (step : σ → α → Option σ) (R : σ → σ → Prop) : σ → List α → Prop
  | s, [] => R s s
  | s, a :: as => EveryState step (R s) s (a :: as) ∧
      ∀ s', step s a = some s' → EveryPair step R s' as

variable {step : σ → α → Option σ} {C : σ → α → Prop} {P I : σ → Prop} {R : σ → σ → Prop}

theorem forall_eq_some_iff {o : Option σ} {Q : σ → Prop} {s : σ} (h : o = some s) :
    (∀ s', o = some s' → Q s') ↔ Q s := by
  subst h
  exact ⟨fun hQ => hQ s rfl, fun hQ s' hs' => Option.some.inj hs' ▸ hQ⟩

instance AllSteps.decidable [∀ s a, Decidable (C s a)] :
    ∀ (s : σ) (as : List α), Decidable (AllSteps step C s as)
  | _, [] => .isTrue trivial
  | s, a :: as =>
    match h : step s a with
    | none => .isTrue fun _ hs' => nomatch h.symm.trans hs'
    | some s' =>
      have := AllSteps.decidable s' as
      decidable_of_iff (C s a ∧ AllSteps step C s' as)
        (forall_eq_some_iff (Q := fun s' => C s a ∧ AllSteps step C s' as) h).symm

instance EveryState.decidable [∀ s, Decidable (P s)] :
    ∀ (s : σ) (as : List α), Decidable (EveryState step P s as)
  | s, [] => inferInstanceAs (Decidable (P s))
  | s, a :: as =>
    match h : step s a with
    | none => decidable_of_iff (P s)
        ⟨fun hP => ⟨hP, fun _ hs' => nomatch h.symm.trans hs'⟩, And.left⟩
    | some s' =>
      have := EveryState.decidable s' as
      decidable_of_iff (P s ∧ EveryState step P s' as)
        (and_congr_right' (forall_eq_some_iff (Q := fun s' => EveryState step P s' as) h).symm)

theorem runSteps_cons {s s' : σ} {a : α} {as : List α} (h : runSteps step s (a :: as) = some s') :
    ∃ t, step s a = some t ∧ runSteps step t as = some s' :=
  Option.bind_eq_some_iff.mp h

theorem runSteps_append : ∀ (as bs : List α) (s : σ),
    runSteps step s (as ++ bs) = (runSteps step s as).bind fun s' => runSteps step s' bs
  | [], _, _ => rfl
  | a :: as, bs, s => by
    show ((step s a).bind fun s' => runSteps step s' (as ++ bs)) = _
    rw [runSteps, Option.bind_assoc]
    exact congrArg _ (funext fun s' => runSteps_append as bs s')

theorem EveryState.mono {Q : σ → Prop} (hPQ : ∀ s, P s → Q s) : ∀ {as : List α} {s : σ},
    EveryState step P s as → EveryState step Q s as
  | [], s, h => hPQ s h
  | _ :: _, s, h => ⟨hPQ s h.1, fun s' hs' => (h.2 s' hs').mono hPQ⟩

theorem EveryPair.mono {S : σ → σ → Prop} (hRS : ∀ s s', R s s' → S s s') :
    ∀ {as : List α} {s : σ}, EveryPair step R s as → EveryPair step S s as
  | [], s, h => hRS s s h
  | _ :: _, s, h => ⟨h.1.mono (hRS s), fun s' hs' => (h.2 s' hs').mono hRS⟩

theorem EveryState.first : ∀ {as : List α} {s : σ}, EveryState step P s as → P s
  | [], _, h => h
  | _ :: _, _, h => h.1

/-- A condition on the steps alone. -/
theorem AllSteps.of_forall {D : α → Prop} : ∀ {as : List α} {s : σ}, (∀ a ∈ as, D a) →
    AllSteps step (fun _ a => D a) s as
  | [], _, _ => trivial
  | a :: _, _, h => fun _ _ =>
    ⟨h a (List.mem_cons_self ..), AllSteps.of_forall fun b hb => h b (List.mem_cons_of_mem _ hb)⟩

/-- The last state of a run. -/
theorem EveryState.last : ∀ {as : List α} {s s' : σ}, EveryState step P s as →
    runSteps step s as = some s' → P s'
  | [], _, _, h, hrun => Option.some.inj hrun ▸ h
  | _ :: _, _, _, h, hrun => by
    obtain ⟨t, ht, hrun⟩ := runSteps_cons hrun
    exact (h.2 t ht).last hrun

/-- A state reached and a later one. -/
theorem EveryPair.related : ∀ {as bs : List α} {s t u : σ}, EveryPair step R s (as ++ bs) →
    runSteps step s as = some t → runSteps step t bs = some u → R t u
  | [], [], _, _, _, h, ht, hu => by
    cases ht
    cases hu
    exact h
  | [], _ :: _, _, _, _, h, ht, hu => by
    cases ht
    exact h.1.last hu
  | _ :: _, _, _, _, _, h, ht, hu => by
    obtain ⟨v, hv, ht⟩ := runSteps_cons ht
    exact (h.2 v hv).related ht hu

/-- **Invariants.** What holds first and is kept by the steps that meet `C` holds in every
state of a run whose steps meet it. -/
theorem EveryState.of_allSteps (hstep : ∀ s a s', P s → C s a → step s a = some s' → P s') :
    ∀ {as : List α} {s : σ}, P s → AllSteps step C s as → EveryState step P s as
  | [], _, hs, _ => hs
  | a :: as, s, hs, h => by
    refine ⟨hs, fun s' hs' => ?_⟩
    obtain ⟨ha, has⟩ := h s' hs'
    exact EveryState.of_allSteps hstep (hstep s a s' hs ha hs') has

/-- A preorder that the steps from states in `I` go along. -/
theorem EveryPair.of_allSteps (hrefl : ∀ s, R s s) (htrans : ∀ s t u, R s t → R t u → R s u)
    (hstep : ∀ s a s', I s → C s a → step s a = some s' → I s' ∧ R s s') :
    ∀ {as : List α} {s : σ}, I s → AllSteps step C s as → EveryPair step R s as
  | [], s, _, _ => hrefl s
  | a :: as, s, hs, h => by
    have hlater : EveryState step (fun t => I t ∧ R s t) s (a :: as) :=
      EveryState.of_allSteps (fun t b t' ht hb htb =>
        ⟨(hstep t b t' ht.1 hb htb).1, htrans s t t' ht.2 (hstep t b t' ht.1 hb htb).2⟩)
        ⟨hs, hrefl s⟩ h
    refine ⟨hlater.mono fun _ => And.right, fun s' hs' => ?_⟩
    obtain ⟨ha, has⟩ := h s' hs'
    exact EveryPair.of_allSteps hrefl htrans hstep (hstep s a s' hs ha hs').1 has

/-- **Exact conditions.** If a step from `I` leads into `P` exactly when it meets `C`, and
then stays in `I`, then runs stay in `P` exactly when all their steps meet `C`. (`D` are the
steps that a run is made of.) -/
theorem everyState_iff_allSteps {D : α → Prop} (hIP : ∀ s, I s → P s)
    (hstep : ∀ s a s', I s → D a → step s a = some s' → (C s a → I s') ∧ (P s' → C s a)) :
    ∀ {as : List α} {s : σ}, I s → (∀ a ∈ as, D a) →
      (EveryState step P s as ↔ AllSteps step C s as)
  | [], s, hs, _ => iff_of_true (hIP s hs) trivial
  | a :: as, s, hs, hD => by
    have hone (s' : σ) (hs' : step s a = some s') := hstep s a s' hs (hD a (List.mem_cons_self ..)) hs'
    have hrest (s' : σ) (hs' : step s a = some s') (ha : C s a) :=
      everyState_iff_allSteps hIP hstep ((hone s' hs').1 ha)
        fun b hb => hD b (List.mem_cons_of_mem a hb)
    constructor
    · rintro ⟨-, h⟩ s' hs'
      have ha : C s a := (hone s' hs').2 (h s' hs').first
      exact ⟨ha, (hrest s' hs' ha).mp (h s' hs')⟩
    · intro h
      refine ⟨hIP s hs, fun s' hs' => ?_⟩
      obtain ⟨ha, has⟩ := h s' hs'
      exact (hrest s' hs' ha).mpr has

/-! ## Records -/

/-- The steps of a system with a record of what has happened so far. -/
def recorded (after : γ → σ → α → γ) (step : σ → α → Option σ) (p : γ × σ) (a : α) :
    Option (γ × σ) :=
  (step p.2 a).map fun s' => (after p.1 p.2 a, s')

theorem recorded_some {after : γ → σ → α → γ} {p p' : γ × σ} {a : α}
    (h : recorded after step p a = some p') :
    p'.1 = after p.1 p.2 a ∧ step p.2 a = some p'.2 := by
  obtain ⟨s', hs', rfl⟩ := Option.map_eq_some_iff.mp h
  exact ⟨rfl, hs'⟩

/-- The record changes nothing. -/
theorem everyState_recorded {f : γ → σ → α → γ} : ∀ {as : List α} {g : γ} {s : σ},
    EveryState (recorded f step) (fun p => P p.2) (g, s) as ↔ EveryState step P s as
  | [], _, _ => Iff.rfl
  | a :: as, g, s => by
    refine and_congr_right' ⟨fun h s' hs' => ?_, fun h p' hp' => ?_⟩
    · have hrec : recorded f step (g, s) a = some (f g s a, s') := by
        rw [recorded, hs']
        rfl
      exact everyState_recorded.mp (h _ hrec)
    · obtain ⟨-, hs'⟩ := recorded_some hp'
      exact everyState_recorded.mpr (h p'.2 hs')

/-! ## Answers -/

variable {τ β : Type}

/-- The answers of a system to a list of requests, and its last state. -/
def answers (serve : σ → α → β × σ) : σ → List α → List β × σ
  | s, [] => ([], s)
  | s, a :: as =>
    ((serve s a).1 :: (answers serve (serve s a).2 as).1, (answers serve (serve s a).2 as).2)

/-- **Simulation.** If related states give the same answer and stay related, for the
requests in `D`, then so they do in every run. -/
theorem answers_of_simulation {serve : σ → α → β × σ} {serve' : τ → α → β × τ}
    {R : σ → τ → Prop} {D : α → Prop}
    (hstep : ∀ s t a, R s t → D a →
      (serve s a).1 = (serve' t a).1 ∧ R (serve s a).2 (serve' t a).2)
    {as : List α} {s : σ} {t : τ} (h : R s t) (hD : ∀ a ∈ as, D a) :
    (answers serve s as).1 = (answers serve' t as).1 ∧
      R (answers serve s as).2 (answers serve' t as).2 := by
  induction as generalizing s t with
  | nil => exact ⟨rfl, h⟩
  | cons a as ih =>
    obtain ⟨hanswer, hnext⟩ := hstep s t a h (hD a (List.mem_cons_self ..))
    obtain ⟨hrest, hlast⟩ := ih hnext fun b hb => hD b (List.mem_cons_of_mem a hb)
    refine ⟨?_, hlast⟩
    show (serve s a).1 :: (answers serve (serve s a).2 as).1 = _
    rw [hanswer, hrest]
    rfl

end CLib
