import Thor.CLib.Strtok
import Mathlib.Logic.Function.Basic

/-!
# Scans, and two of them at once

A parse that takes its tokens with `strtok` is a `Scan`: which delimiters the next
call uses depends on the tokens it has. The first call is given the text, all others
`NULL`.

- `Scan.tokens`, `Scan.result`, `Scan.rest`: a scan that runs alone.
- `Shared`: two scans, each with a text of its own, and the one position `strtok`
  keeps for the whole process. A token is the text it lies in, and its bytes.
- `Apart`: the same two with a position each, as with `strtok_r`.
- `unnoticed_iff_clear`: in which orders of the calls the two cannot be told apart.
-/

namespace CLib

/-- A parse made of calls of `strtok`. -/
inductive Scan (α : Type) where
  | done (a : α)
  | take (d : Str) (next : Option Str → Scan α)

namespace Scan

variable {α : Type}

/-- The tokens a scan takes from a text. -/
def tokens : Scan α → Str → List (Option Str)
  | done _, _ => []
  | take d next, s => (strtok d s).1 :: (next (strtok d s).1).tokens (strtok d s).2

/-- What it makes of them. -/
def result : Scan α → Str → α
  | done a, _ => a
  | take d next, s => (next (strtok d s).1).result (strtok d s).2

/-- The text it leaves. -/
def rest : Scan α → Str → Str
  | done _, s => s
  | take d next, s => (next (strtok d s).1).rest (strtok d s).2

/-- Take `n` tokens. -/
def takes (d : Str) : Nat → ((Nat → Option Str) → Scan α) → Scan α
  | 0, k => k fun _ => none
  | n + 1, k => take d fun t => takes d n fun f => k fun
    | 0 => t
    | m + 1 => f m

/-- The call after `n` others takes field number `n`. -/
theorem result_take (d s : Str) (n : Nat) (next : Option Str → Scan α) :
    (take d next).result (strtokRest d n s)
      = (next (fields d s)[n]?).result (strtokRest d (n + 1) s) := by
  rw [result, strtok_strtokRest]
  rfl

end Scan

/-! ## Two scans -/

inductive Side where
  | left | right
  deriving DecidableEq

/-- A token: the text it lies in, and its bytes. `NULL` lies in no text. -/
abbrev Taken := Option (Side × Str)

variable {α : Side → Type}

/-- Two scans under way, with one position: the text it is in, and what is left of it.
It is not looked at before the first call. -/
structure Shared (α : Side → Type) where
  scan : ∀ i, Scan (α i)
  started : Side → Bool
  pos : Side × Str

namespace Shared

variable (text : Side → Str)

/-- Where the next call of a scan reads. -/
def source (s : Shared α) (i : Side) : Side × Str := if s.started i then s.pos else (i, text i)

/-- The token of that call. -/
def token (s : Shared α) (i : Side) (d : Str) : Taken :=
  (strtok d (s.source text i).2).1.map (Prod.mk (s.source text i).1)

/-- The state after it. -/
def step (s : Shared α) (i : Side) (d : Str) (next : Option Str → Scan (α i)) : Shared α where
  scan := Function.update s.scan i (next (strtok d (s.source text i).2).1)
  started := Function.update s.started i true
  pos := ((s.source text i).1, (strtok d (s.source text i).2).2)

/-- The tokens each scan gets when the calls come in the order `σ`. A scan that has
made all its calls is passed over. -/
def tokens : List Side → Shared α → Side → List Taken
  | [], _, _ => []
  | i :: σ, s, j =>
    match s.scan i with
    | .done _ => tokens σ s j
    | .take d next =>
      if j = i then s.token text i d :: tokens σ (s.step text i d next) j
      else tokens σ (s.step text i d next) j

end Shared

/-- The two scans with a position each, and the one that made its first call last. -/
structure Apart (α : Side → Type) where
  scan : ∀ i, Scan (α i)
  started : Side → Bool
  own : Side → Str
  last : Side

namespace Apart

/-- The state after the next call of a scan. -/
def step (p : Apart α) (i : Side) (d : Str) (next : Option Str → Scan (α i)) : Apart α where
  scan := Function.update p.scan i (next (strtok d (p.own i)).1)
  started := Function.update p.started i true
  own := Function.update p.own i (strtok d (p.own i)).2
  last := if p.started i then p.last else i

/-- The tokens a scan has yet to take, running alone. -/
def tokens (p : Apart α) (i : Side) : List Taken :=
  ((p.scan i).tokens (p.own i)).map (Option.map (Prod.mk i))

/-- The other scan has started after this one. -/
def Overtaken (p : Apart α) (i : Side) : Prop := p.started i = true ∧ p.last ≠ i

instance (p : Apart α) (i : Side) : Decidable (p.Overtaken i) := by
  unfold Overtaken
  infer_instance

/-- Every call in `σ` returns `NULL`. -/
def Spent : List Side → Apart α → Prop
  | [], _ => True
  | i :: σ, p =>
    match p.scan i with
    | .done _ => Spent σ p
    | .take d next => (strtok d (p.own i)).1 = none ∧ Spent σ (p.step i d next)

/-- No call of a scan comes after the start of the other, unless there is nothing left
there to take, and nothing to come but `NULL` for either of them. -/
def Clear : List Side → Apart α → Prop
  | [], _ => True
  | i :: σ, p =>
    match p.scan i with
    | .done _ => Clear σ p
    | .take d next =>
      if p.Overtaken i then (strtok d (p.own p.last)).1 = none ∧ Spent (i :: σ) p
      else Clear σ (p.step i d next)

end Apart

/-- When the calls come in the order `σ`, each scan gets the tokens that its calls in
`σ` get alone. -/
def Unnoticed (text : Side → Str) (σ : List Side) (s : Shared α) (p : Apart α) : Prop :=
  ∀ j, Shared.tokens text σ s j = (p.tokens j).take (σ.count j)

/-! ## One call -/

section Step

variable {text : Side → Str} {s : Shared α} {p : Apart α} {i : Side} {d : Str}
  {next : Option Str → Scan (α i)} {σ : List Side}

theorem Apart.tokens_self (h : p.scan i = .take d next) :
    p.tokens i = (strtok d (p.own i)).1.map (Prod.mk i) :: (p.step i d next).tokens i := by
  simp only [Apart.tokens, Apart.step, h, Scan.tokens, List.map_cons, Function.update_self]

theorem Apart.tokens_of_ne {j : Side} (h : j ≠ i) : (p.step i d next).tokens j = p.tokens j := by
  simp only [Apart.tokens, Apart.step, Function.update_of_ne h]

theorem unnoticed_nil : Unnoticed text [] s p := fun _ => rfl

/-- A scan that has made all its calls. -/
theorem unnoticed_done_iff {a : α i} (hs : s.scan i = .done a) (hp : p.scan i = .done a) :
    Unnoticed text (i :: σ) s p ↔ Unnoticed text σ s p := by
  refine forall_congr' fun j => ?_
  have hshared : Shared.tokens text (i :: σ) s j = Shared.tokens text σ s j := by
    simp only [Shared.tokens, hs]
  have hown : (p.tokens j).take ((i :: σ).count j) = (p.tokens j).take (σ.count j) := by
    by_cases hj : j = i
    · subst hj
      simp only [Apart.tokens, hp, Scan.tokens, List.map_nil, List.take_nil]
    · rw [List.count_cons_of_ne (Ne.symm hj)]
  rw [hshared, hown]

/-- A call is right, and so are those after it. -/
theorem unnoticed_take_iff (hs : s.scan i = .take d next) (hp : p.scan i = .take d next) :
    Unnoticed text (i :: σ) s p ↔
      s.token text i d = (strtok d (p.own i)).1.map (Prod.mk i) ∧
      Unnoticed text σ (s.step text i d next) (p.step i d next) := by
  have hself : Shared.tokens text (i :: σ) s i = (p.tokens i).take ((i :: σ).count i) ↔
      s.token text i d = (strtok d (p.own i)).1.map (Prod.mk i) ∧
      Shared.tokens text σ (s.step text i d next) i
        = ((p.step i d next).tokens i).take (σ.count i) := by
    rw [Apart.tokens_self hp, List.count_cons_self, List.take_succ_cons]
    simp only [Shared.tokens, hs, if_true, List.cons.injEq]
  have hother (j : Side) (hj : j ≠ i) :
      Shared.tokens text (i :: σ) s j = (p.tokens j).take ((i :: σ).count j) ↔
      Shared.tokens text σ (s.step text i d next) j
        = ((p.step i d next).tokens j).take (σ.count j) := by
    rw [Apart.tokens_of_ne hj, List.count_cons_of_ne (Ne.symm hj)]
    simp only [Shared.tokens, hs, if_neg hj]
  constructor
  · intro h
    refine ⟨(hself.mp (h i)).1, fun j => ?_⟩
    by_cases hj : j = i
    · subst hj
      exact (hself.mp (h j)).2
    · exact (hother j hj).mp (h j)
  · rintro ⟨htoken, h⟩ j
    by_cases hj : j = i
    · subst hj
      exact hself.mpr ⟨htoken, h j⟩
    · exact (hother j hj).mpr (h j)

end Step

/-! ## Before a scan is overtaken -/

/-- The shared position is that of the scan that started last. -/
structure Agrees (text : Side → Str) (s : Shared α) (p : Apart α) : Prop where
  scan : s.scan = p.scan
  started : s.started = p.started
  fresh : ∀ i, p.started i = false → p.own i = text i
  pos : ∀ i, p.started i = true → s.pos = (p.last, p.own p.last) ∧ p.started p.last = true

variable {text : Side → Str} {s : Shared α} {p : Apart α} {i : Side} {d : Str}
  {next : Option Str → Scan (α i)}

/-- A scan that is not overtaken reads its own text. -/
theorem Agrees.source (h : Agrees text s p) (hi : ¬ p.Overtaken i) : s.source text i = (i, p.own i) := by
  unfold Shared.source
  rw [h.started]
  cases hst : p.started i with
  | false => rw [if_neg Bool.false_ne_true, h.fresh i hst]
  | true =>
    have hlast : p.last = i := by
      by_contra hne
      exact hi ⟨hst, hne⟩
    rw [if_pos rfl, (h.pos i hst).1, hlast]

theorem Agrees.step (h : Agrees text s p) (hi : ¬ p.Overtaken i) :
    Agrees text (s.step text i d next) (p.step i d next) := by
  have hsource := h.source hi
  have hlast : (p.step i d next).last = i := by
    show (if p.started i then p.last else i) = i
    split
    · next hst =>
      by_contra hne
      exact hi ⟨hst, hne⟩
    · rfl
  refine ⟨?_, ?_, fun j hj => ?_, fun j hj => ?_⟩
  · simp only [Shared.step, Apart.step, hsource, h.scan]
  · simp only [Shared.step, Apart.step, h.started]
  · have hne : j ≠ i := by
      rintro rfl
      simp [Apart.step] at hj
    simp only [Apart.step, Function.update_of_ne hne] at hj ⊢
    exact h.fresh j hj
  · rw [hlast]
    simp [Shared.step, Apart.step, hsource]

/-! ## After it -/

/-- Both scans have started, and the position is at the end of a text. -/
structure AtEnd (s : Shared α) (p : Apart α) : Prop where
  scan : s.scan = p.scan
  started : ∀ i, s.started i = true
  pos : s.pos.2 = []

theorem AtEnd.source (h : AtEnd s p) : (s.source text i).2 = [] := by
  rw [Shared.source, if_pos (h.started i), h.pos]

/-- A call that finds nothing leaves the position at the end. -/
theorem strtok_snd_of_none {d : Str} : ∀ {s : Str}, (strtok d s).1 = none → (strtok d s).2 = []
  | [], _ => rfl
  | c :: s, h => by
    by_cases hc : c ∈ d
    · rw [strtok, if_pos hc] at h ⊢
      exact strtok_snd_of_none h
    · rw [strtok, if_neg hc] at h
      cases h

/-- The state after a call that returns `NULL`, as it would alone. -/
theorem AtEnd.of_null (hscan : s.scan = p.scan) (hstarted : ∀ j, j ≠ i → s.started j = true)
    (hnull : (strtok d (s.source text i).2).1 = none) (hown : (strtok d (p.own i)).1 = none) :
    AtEnd (s.step text i d next) (p.step i d next) := by
  refine ⟨?_, fun j => ?_, strtok_snd_of_none hnull⟩
  · simp only [Shared.step, Apart.step, hscan, hnull, hown]
  · by_cases hj : j = i
    · subst hj
      exact Function.update_self ..
    · exact (Function.update_of_ne hj ..).trans (hstarted j hj)

/-- At the end of a text every call returns `NULL`. -/
theorem unnoticed_iff_spent : ∀ {σ : List Side} {s : Shared α} {p : Apart α}, AtEnd s p →
    (Unnoticed text σ s p ↔ p.Spent σ)
  | [], _, _, _ => iff_of_true unnoticed_nil trivial
  | i :: σ, s, p, h => by
    cases hp : p.scan i with
    | done a =>
      rw [unnoticed_done_iff (h.scan ▸ hp) hp]
      simp only [Apart.Spent, hp]
      exact unnoticed_iff_spent h
    | take d next =>
      have hnull : (strtok d (s.source text i).2).1 = none := by
        rw [h.source]
        rfl
      rw [unnoticed_take_iff (h.scan ▸ hp) hp, Shared.token, hnull, Option.map_none, eq_comm,
        Option.map_eq_none_iff]
      simp only [Apart.Spent, hp]
      exact and_congr_right fun hown =>
        unnoticed_iff_spent (.of_null h.scan (fun j _ => h.started j) hnull hown)

/-- **Two scans at once.** Each gets the tokens it gets alone exactly when no call of one
comes after the start of the other, as long as there is anything left to take. -/
theorem unnoticed_iff_clear : ∀ {σ : List Side} {s : Shared α} {p : Apart α}, Agrees text s p →
    (Unnoticed text σ s p ↔ p.Clear σ)
  | [], _, _, _ => iff_of_true unnoticed_nil trivial
  | i :: σ, s, p, h => by
    cases hp : p.scan i with
    | done a =>
      rw [unnoticed_done_iff (h.scan ▸ hp) hp]
      simp only [Apart.Clear, hp]
      exact unnoticed_iff_clear h
    | take d next =>
      have hs : s.scan i = .take d next := by rw [h.scan, hp]
      simp only [Apart.Clear, hp]
      split
      · next hover =>
        -- the position is in the other text, so the token can only be `NULL`
        have hsource : s.source text i = (p.last, p.own p.last) := by
          rw [Shared.source, if_pos (h.started ▸ hover.1), (h.pos i hover.1).1]
        have htoken : s.token text i d = (strtok d (p.own i)).1.map (Prod.mk i) ↔
            (strtok d (p.own p.last)).1 = none ∧ (strtok d (p.own i)).1 = none := by
          rw [Shared.token, hsource]
          dsimp only
          cases (strtok d (p.own p.last)).1 with
          | none => cases (strtok d (p.own i)).1 <;> simp
          | some t => cases (strtok d (p.own i)).1 <;> simp [hover.2]
        rw [unnoticed_take_iff hs hp, htoken, and_assoc]
        simp only [Apart.Spent, hp]
        refine and_congr_right fun hlast => and_congr_right fun hown =>
          unnoticed_iff_spent (.of_null h.scan (fun j hj => ?_) (by rwa [hsource]) hown)
        have hother : p.last = j := by
          have hne := hover.2
          revert hne hj
          cases p.last <;> cases i <;> cases j <;> simp
        rw [h.started, ← hother]
        exact (h.pos i hover.1).2
      · next hover =>
        have htoken : s.token text i d = (strtok d (p.own i)).1.map (Prod.mk i) := by
          rw [Shared.token, h.source hover]
        rw [unnoticed_take_iff hs hp, and_iff_right htoken]
        exact unnoticed_iff_clear (h.step hover)

end CLib
