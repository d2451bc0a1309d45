import Mathlib.Data.List.Basic

/-!
# Programs with state, failure and events

A shallow embedding of sequential C code: a program reads and writes a state
`σ`, emits the events `ω` that can be seen from outside, and returns a value or
stops in a failure `ε`. A failure stops the program where it is: the state
changed and the events emitted before it stay.

Three judgments, each with one rule per way of building a program:

- `Triple P m Q`: from a state in `P`, a run of `m` that returns `a` after the
  events `o` ends with `Q a o`.
- `RelOn P m R`: from a state in `P`, every run of `m`, failed or not, relates
  the first state, the events and the last state by `R`. For a `Composable` `R`
  (a frame, an invariant, a discipline on events) the sequence rule needs
  nothing but the two parts.
- `CountOn P m p n`: from a state in `P`, a run of `m` that returns emits
  exactly `n` events in `p`.
-/

/-- How a run ended, in which state, and the events on the way. -/
structure Outcome (σ ε ω α : Type) where
  val : Except ε α
  state : σ
  out : List ω

/-- A program over states `σ`, failures `ε`, events `ω`, with result `α`. -/
structure Prog (σ ε ω α : Type) where
  run : σ → Outcome σ ε ω α

namespace Prog

variable {σ ε ω α β : Type}

/-- `m`, then the program its result selects. -/
def bind (m : Prog σ ε ω α) (f : α → Prog σ ε ω β) : Prog σ ε ω β where
  run s :=
    match (m.run s).val with
    | .ok a => ⟨((f a).run (m.run s).state).val, ((f a).run (m.run s).state).state,
        (m.run s).out ++ ((f a).run (m.run s).state).out⟩
    | .error e => ⟨.error e, (m.run s).state, (m.run s).out⟩

instance : Monad (Prog σ ε ω) where
  pure a := ⟨fun s => ⟨.ok a, s, []⟩⟩
  bind := bind

/-- A part of the state. -/
def gets (f : σ → α) : Prog σ ε ω α := ⟨fun s => ⟨.ok (f s), s, []⟩⟩

/-- Change the state. -/
def modify (f : σ → σ) : Prog σ ε ω Unit := ⟨fun s => ⟨.ok (), f s, []⟩⟩

/-- Stop. -/
def fail (e : ε) : Prog σ ε ω α := ⟨fun s => ⟨.error e, s, []⟩⟩

/-- Emit one event. -/
def emit (o : ω) : Prog σ ε ω Unit := ⟨fun s => ⟨.ok (), s, [o]⟩⟩

/-! ## Running a program -/

@[simp] theorem run_pure (a : α) (s : σ) :
    (pure a : Prog σ ε ω α).run s = ⟨.ok a, s, []⟩ := rfl

@[simp] theorem run_gets (f : σ → α) (s : σ) :
    (gets f : Prog σ ε ω α).run s = ⟨.ok (f s), s, []⟩ := rfl

@[simp] theorem run_modify (f : σ → σ) (s : σ) :
    (modify f : Prog σ ε ω Unit).run s = ⟨.ok (), f s, []⟩ := rfl

@[simp] theorem run_fail (e : ε) (s : σ) :
    (fail e : Prog σ ε ω α).run s = ⟨.error e, s, []⟩ := rfl

@[simp] theorem run_emit (o : ω) (s : σ) :
    (emit o : Prog σ ε ω Unit).run s = ⟨.ok (), s, [o]⟩ := rfl

theorem run_bind (m : Prog σ ε ω α) (f : α → Prog σ ε ω β) (s : σ) :
    (m >>= f).run s =
      match (m.run s).val with
      | .ok a => ⟨((f a).run (m.run s).state).val, ((f a).run (m.run s).state).state,
          (m.run s).out ++ ((f a).run (m.run s).state).out⟩
      | .error e => ⟨.error e, (m.run s).state, (m.run s).out⟩ := rfl

theorem run_bind_of_ok {m : Prog σ ε ω α} {f : α → Prog σ ε ω β} {s : σ} {a : α}
    (h : (m.run s).val = .ok a) :
    (m >>= f).run s = ⟨((f a).run (m.run s).state).val, ((f a).run (m.run s).state).state,
      (m.run s).out ++ ((f a).run (m.run s).state).out⟩ := by
  rw [run_bind, h]

theorem run_bind_of_error {m : Prog σ ε ω α} {f : α → Prog σ ε ω β} {s : σ} {e : ε}
    (h : (m.run s).val = .error e) :
    (m >>= f).run s = ⟨.error e, (m.run s).state, (m.run s).out⟩ := by
  rw [run_bind, h]

theorem run_bind_of_run {m : Prog σ ε ω α} {f : α → Prog σ ε ω β} {s s' : σ} {a : α} {o : List ω}
    (h : m.run s = ⟨.ok a, s', o⟩) :
    (m >>= f).run s = ⟨((f a).run s').val, ((f a).run s').state, o ++ ((f a).run s').out⟩ := by
  rw [run_bind, h]

theorem run_bind_congr {m m' : Prog σ ε ω α} {f : α → Prog σ ε ω β} {s : σ}
    (h : m.run s = m'.run s) : (m >>= f).run s = (m' >>= f).run s := by
  rw [run_bind, run_bind, h]

/-- A sequence that returns: its first part returned. -/
theorem bind_val_ok {m : Prog σ ε ω α} {f : α → Prog σ ε ω β} {s : σ} {b : β}
    (h : ((m >>= f).run s).val = .ok b) :
    ∃ a, (m.run s).val = .ok a ∧ ((f a).run (m.run s).state).val = .ok b := by
  cases hm : (m.run s).val with
  | ok a =>
    rw [run_bind_of_ok hm] at h
    exact ⟨a, rfl, h⟩
  | error e =>
    rw [run_bind_of_error hm] at h
    cases h

/-- What the first part of a sequence puts out, the sequence does. -/
theorem mem_out_left {m : Prog σ ε ω α} {s : σ} {o : ω} (h : o ∈ (m.run s).out)
    (f : α → Prog σ ε ω β) : o ∈ ((m >>= f).run s).out := by
  cases hm : (m.run s).val with
  | ok a =>
    rw [run_bind_of_ok hm]
    exact List.mem_append_left _ h
  | error e =>
    rw [run_bind_of_error hm]
    exact h

/-- What the second part puts out, if the sequence gets there. -/
theorem mem_out_right {m : Prog σ ε ω α} {f : α → Prog σ ε ω β} {s : σ} {a : α} {o : ω}
    (hm : (m.run s).val = .ok a) (h : o ∈ ((f a).run (m.run s).state).out) :
    o ∈ ((m >>= f).run s).out := by
  rw [run_bind_of_ok hm]
  exact List.mem_append_right _ h

theorem ext {m m' : Prog σ ε ω α} (h : ∀ s, m.run s = m'.run s) : m = m' := by
  cases m
  cases m'
  exact congrArg _ (funext h)

theorem pure_bind (a : α) (f : α → Prog σ ε ω β) : (pure a >>= f) = f a :=
  ext fun s => by simp [run_bind]

theorem bind_assoc {γ : Type} (m : Prog σ ε ω α) (f : α → Prog σ ε ω β) (g : β → Prog σ ε ω γ) :
    ((m >>= f) >>= g) = m >>= fun a => f a >>= g :=
  ext fun s => by
    simp only [run_bind]
    obtain ⟨val, state, out⟩ := m.run s
    cases val with
    | error e => rfl
    | ok a =>
      dsimp only
      cases ((f a).run state).val <;> simp

/-! ## Triples -/

/-- From `P`, a run that returns `a` after the events `o` ends in `Q a o`. -/
def Triple (P : σ → Prop) (m : Prog σ ε ω α) (Q : α → List ω → σ → Prop) : Prop :=
  ∀ s, P s → ∀ a, (m.run s).val = .ok a → Q a (m.run s).out (m.run s).state

namespace Triple

variable {P P' : σ → Prop} {m : Prog σ ε ω α} {f : α → Prog σ ε ω β}
  {Q Q' : α → List ω → σ → Prop}

theorem consequence (h : Triple P m Q) (hP : ∀ s, P' s → P s)
    (hQ : ∀ a o s, Q a o s → Q' a o s) : Triple P' m Q' :=
  fun s hs a ha => hQ _ _ _ (h s (hP s hs) a ha)

theorem bind {S : β → List ω → σ → Prop} (hm : Triple P m Q)
    (hf : ∀ a o, Triple (Q a o) (f a) fun b o' s => S b (o ++ o') s) :
    Triple P (m >>= f) S := by
  intro s hs b hb
  obtain ⟨a, ha, hfa⟩ := bind_val_ok hb
  rw [run_bind_of_ok ha]
  exact hf a _ _ (hm s hs a ha) b hfa

theorem pure {a : α} (h : ∀ s, P s → Q a [] s) :
    Triple P (Pure.pure a : Prog σ ε ω α) Q := by
  intro s hs b hb
  cases hb
  exact h s hs

theorem gets {g : σ → α} (h : ∀ s, P s → Q (g s) [] s) :
    Triple P (Prog.gets g : Prog σ ε ω α) Q := by
  intro s hs b hb
  cases hb
  exact h s hs

theorem modify {g : σ → σ} {Q : Unit → List ω → σ → Prop} (h : ∀ s, P s → Q () [] (g s)) :
    Triple P (Prog.modify g : Prog σ ε ω Unit) Q :=
  fun s hs _ _ => h s hs

theorem fail {e : ε} : Triple P (Prog.fail e : Prog σ ε ω α) Q :=
  fun _ _ _ h => (nomatch h)

theorem emit {o : ω} {Q : Unit → List ω → σ → Prop} (h : ∀ s, P s → Q () [o] s) :
    Triple P (Prog.emit o : Prog σ ε ω Unit) Q :=
  fun s hs _ _ => h s hs

theorem ite {c : Prop} [Decidable c] {m' : Prog σ ε ω α} (h : c → Triple P m Q)
    (h' : ¬ c → Triple P m' Q) : Triple P (if c then m else m') Q := by
  by_cases hc : c
  · rw [if_pos hc]
    exact h hc
  · rw [if_neg hc]
    exact h' hc

end Triple

/-! ## Relations kept by every run -/

/-- `R` holds of doing nothing, and of two runs in a row when it holds of each. -/
structure Composable (R : σ → List ω → σ → Prop) : Prop where
  refl : ∀ s, R s [] s
  trans : ∀ {s o s' o' s''}, R s o s' → R s' o' s'' → R s (o ++ o') s''

/-- From `P`, every run of `m` is related by `R`, also a failed one. -/
def RelOn (P : σ → Prop) (m : Prog σ ε ω α) (R : σ → List ω → σ → Prop) : Prop :=
  ∀ s, P s → R s (m.run s).out (m.run s).state

namespace RelOn

variable {P P' : σ → Prop} {m : Prog σ ε ω α} {f : α → Prog σ ε ω β}
  {R R' : σ → List ω → σ → Prop}

theorem weaken (h : RelOn P m R) (hP : ∀ s, P' s → P s) : RelOn P' m R :=
  fun s hs => h s (hP s hs)

/-- The sequence rule: what the first part leaves is what the second starts from. -/
theorem bind {Q : α → σ → Prop} (hR : Composable R) (hm : RelOn P m R)
    (hQ : Triple P m fun a _ s => Q a s) (hf : ∀ a, RelOn (Q a) (f a) R) :
    RelOn P (m >>= f) R := by
  intro s hs
  cases h : (m.run s).val with
  | ok a =>
    rw [run_bind_of_ok h]
    exact hR.trans (hm s hs) (hf a _ (hQ s hs a h))
  | error e =>
    rw [run_bind_of_error h]
    exact hm s hs

/-- The sequence rule for a condition that `R` itself keeps. -/
theorem bindStable (hR : Composable R) (hstable : ∀ {s o s'}, R s o s' → P s → P s')
    (hm : RelOn P m R) (hf : ∀ a, RelOn P (f a) R) : RelOn P (m >>= f) R :=
  bind (Q := fun _ s => P s) hR hm (fun s hs _ _ => hstable (hm s hs) hs) hf

/-- The sequence rule when the second part asks for nothing. -/
theorem seq (hR : Composable R) (hm : RelOn P m R)
    (hf : ∀ a, RelOn (fun _ => True) (f a) R) : RelOn P (m >>= f) R :=
  bind (Q := fun _ _ => True) hR hm (fun _ _ _ _ => trivial) hf

theorem pure (hR : Composable R) {a : α} : RelOn P (Pure.pure a : Prog σ ε ω α) R :=
  fun s _ => hR.refl s

theorem gets (hR : Composable R) {g : σ → α} : RelOn P (Prog.gets g : Prog σ ε ω α) R :=
  fun s _ => hR.refl s

theorem fail (hR : Composable R) {e : ε} : RelOn P (Prog.fail e : Prog σ ε ω α) R :=
  fun s _ => hR.refl s

theorem modify {g : σ → σ} (h : ∀ s, P s → R s [] (g s)) :
    RelOn P (Prog.modify g : Prog σ ε ω Unit) R := h

theorem emit {o : ω} (h : ∀ s, P s → R s [o] s) :
    RelOn P (Prog.emit o : Prog σ ε ω Unit) R := h

theorem ite {c : Prop} [Decidable c] {m' : Prog σ ε ω α} (h : c → RelOn P m R)
    (h' : ¬ c → RelOn P m' R) : RelOn P (if c then m else m') R := by
  by_cases hc : c
  · rw [if_pos hc]
    exact h hc
  · rw [if_neg hc]
    exact h' hc

/-- A loop over a list. -/
theorem forM (hR : Composable R) {g : β → Prog σ ε ω PUnit} {l : List β}
    (h : ∀ b ∈ l, RelOn (fun _ => True) (g b) R) : RelOn (fun _ => True) (l.forM g) R := by
  induction l with
  | nil => exact RelOn.pure hR
  | cons b l ih =>
    exact seq hR (h b (List.mem_cons_self ..)) fun _ => ih fun b' hb' => h b' (List.mem_cons_of_mem _ hb')

end RelOn

/-- A loop whose turns return, keep `I` and act on the part `part` of the state by `act`. -/
theorem run_forM {δ : Type} {I : σ → Prop} {part : σ → δ} {act : δ → β → δ}
    {g : β → Prog σ ε ω PUnit} {l : List β} (h : ∀ b ∈ l, ∀ s, I s → ((g b).run s).val = .ok ⟨⟩ ∧
      I ((g b).run s).state ∧ part ((g b).run s).state = act (part s) b) {s : σ} (hs : I s) :
    ((l.forM g).run s).val = .ok ⟨⟩ ∧ I ((l.forM g).run s).state ∧
      part ((l.forM g).run s).state = l.foldl act (part s) := by
  induction l generalizing s with
  | nil => exact ⟨rfl, hs, rfl⟩
  | cons b l ih =>
    obtain ⟨hval, hinv, hpart⟩ := h b (List.mem_cons_self ..) s hs
    have ih := ih (fun b' hb' => h b' (List.mem_cons_of_mem _ hb')) hinv
    rw [show (b :: l).forM g = (g b >>= fun _ => l.forM g) from rfl, run_bind_of_ok hval,
      List.foldl_cons, ← hpart]
    exact ih

/-! ## Counting events -/

/-- From `P`, a run of `m` that returns emits exactly `n` events in `p`. -/
def CountOn (P : σ → Prop) (m : Prog σ ε ω α) (p : ω → Bool) (n : Nat) : Prop :=
  Triple P m fun _ o _ => o.countP p = n

namespace CountOn

variable {P P' : σ → Prop} {m : Prog σ ε ω α} {f : α → Prog σ ε ω β} {p : ω → Bool}
  {k n : Nat}

theorem weaken (h : CountOn P m p n) (hP : ∀ s, P' s → P s) : CountOn P' m p n :=
  Triple.consequence h hP fun _ _ _ => id

theorem bind {Q : α → σ → Prop} (hm : CountOn P m p k) (hQ : Triple P m fun a _ s => Q a s)
    (hf : ∀ a, CountOn (Q a) (f a) p n) : CountOn P (m >>= f) p (k + n) := by
  refine Triple.bind (Q := fun a o s => o.countP p = k ∧ Q a s)
    (fun s hs a ha => ⟨hm s hs a ha, hQ s hs a ha⟩) fun a o s hs b hb => ?_
  show List.countP p (o ++ ((f a).run s).out) = k + n
  rw [List.countP_append, hs.1, hf a s hs.2 b hb]

theorem seq (hm : CountOn P m p k) (hf : ∀ a, CountOn (fun _ => True) (f a) p n) :
    CountOn P (m >>= f) p (k + n) :=
  bind (Q := fun _ _ => True) hm (fun _ _ _ _ => trivial) hf

/-- The sequence rule for a first part that emits none of the counted events. -/
theorem skip (hm : CountOn P m p 0) (hf : ∀ a, CountOn (fun _ => True) (f a) p n) :
    CountOn P (m >>= f) p n := by
  have h := seq hm hf
  rwa [Nat.zero_add] at h

/-- The sequence rule for a second part that emits none of them. -/
theorem andSkip (hm : CountOn P m p n) (hf : ∀ a, CountOn (fun _ => True) (f a) p 0) :
    CountOn P (m >>= f) p n :=
  seq hm hf

theorem pure {a : α} : CountOn P (Pure.pure a : Prog σ ε ω α) p 0 :=
  Triple.pure fun _ _ => List.countP_nil

theorem gets {g : σ → α} : CountOn P (Prog.gets g : Prog σ ε ω α) p 0 :=
  Triple.gets fun _ _ => List.countP_nil

theorem modify {g : σ → σ} : CountOn P (Prog.modify g : Prog σ ε ω Unit) p 0 :=
  Triple.modify fun _ _ => List.countP_nil

theorem fail {e : ε} : CountOn P (Prog.fail e : Prog σ ε ω α) p n := Triple.fail

theorem emit {o : ω} : CountOn P (Prog.emit o : Prog σ ε ω Unit) p (if p o then 1 else 0) :=
  Triple.emit fun _ _ => by simp [List.countP_cons]

theorem ite {c : Prop} [Decidable c] {m' : Prog σ ε ω α} (h : c → CountOn P m p n)
    (h' : ¬ c → CountOn P m' p n) : CountOn P (if c then m else m') p n :=
  Triple.ite h h'

end CountOn

end Prog
