import Mathlib.Data.List.Chain

/-!
# Runs

A list cut into its runs: the longest stretches of equal entries, each as the entry with its
length.

- `runs`: the runs of a list. One more entry in front makes the first run longer, or opens
  one (`extendRuns`).
- `IsRuns`: what makes a list of lengths the runs of a list. There is one such list only
  (`isRuns_iff`).
-/

namespace CLib

variable {α : Type}

/-- The list that is cut into runs. -/
def unrun (rs : List (α × Nat)) : List α := rs.flatMap fun r => List.replicate r.2 r.1

/-- The runs of `l`: they make up `l`, none is empty, and neighbours differ. -/
structure IsRuns (l : List α) (rs : List (α × Nat)) : Prop where
  unrun_eq : unrun rs = l
  pos : ∀ r ∈ rs, 0 < r.2
  differ : rs.IsChain fun r r' => r.1 ≠ r'.1

theorem IsRuns.tail {r : α × Nat} {rs : List (α × Nat)} {l : List α} (h : IsRuns l (r :: rs)) :
    IsRuns (unrun rs) rs :=
  ⟨rfl, fun r' hr' => h.pos r' (List.mem_cons_of_mem r hr'), h.differ.tail⟩

variable [DecidableEq α]

/-- The runs with one more entry in front. -/
def extendRuns (a : α) : List (α × Nat) → List (α × Nat)
  | [] => [(a, 1)]
  | r :: rs => if a = r.1 then (a, r.2 + 1) :: rs else (a, 1) :: r :: rs

/-- The runs of a list. -/
def runs : List α → List (α × Nat)
  | [] => []
  | a :: l => extendRuns a (runs l)

theorem extendRuns_same (a : α) (n : Nat) (rs : List (α × Nat)) :
    extendRuns a ((a, n) :: rs) = (a, n + 1) :: rs := if_pos rfl

theorem extendRuns_other {a b : α} (h : a ≠ b) (n : Nat) (rs : List (α × Nat)) :
    extendRuns a ((b, n) :: rs) = (a, 1) :: (b, n) :: rs := if_neg h

theorem unrun_extendRuns (a : α) (rs : List (α × Nat)) :
    unrun (extendRuns a rs) = a :: unrun rs := by
  cases rs with
  | nil => rfl
  | cons r rs =>
    obtain ⟨b, n⟩ := r
    rw [extendRuns]
    split
    · rename_i hab
      subst hab
      rfl
    · rfl

theorem extendRuns_pos (a : α) {rs : List (α × Nat)} (h : ∀ r ∈ rs, 0 < r.2) :
    ∀ r ∈ extendRuns a rs, 0 < r.2 := by
  cases rs with
  | nil => simp [extendRuns]
  | cons r rs =>
    have hrs : ∀ r' ∈ rs, 0 < r'.2 := fun r' hr' => h r' (List.mem_cons_of_mem r hr')
    rw [extendRuns]
    split
    · exact List.forall_mem_cons.2 ⟨Nat.succ_pos r.2, hrs⟩
    · exact List.forall_mem_cons.2 ⟨Nat.one_pos, h⟩

theorem extendRuns_differ (a : α) {rs : List (α × Nat)}
    (h : rs.IsChain fun r r' => r.1 ≠ r'.1) :
    (extendRuns a rs).IsChain fun r r' => r.1 ≠ r'.1 := by
  cases rs with
  | nil => exact .singleton _
  | cons r rs =>
    rw [extendRuns]
    split
    · -- the first run grows, with the entry it had
      rename_i har
      subst har
      cases rs with
      | nil => exact .singleton _
      | cons r' rs =>
        rw [List.isChain_cons_cons] at h ⊢
        exact h
    · -- a new run in front of one with another entry
      rename_i har
      exact List.isChain_cons_cons.2 ⟨har, h⟩

theorem isRuns_runs (l : List α) : IsRuns l (runs l) := by
  induction l with
  | nil => exact ⟨rfl, by simp [runs], .nil⟩
  | cons a l ih =>
    refine ⟨?_, extendRuns_pos a ih.pos, extendRuns_differ a ih.differ⟩
    rw [runs, unrun_extendRuns, ih.unrun_eq]

/-- A run in front of runs that start with another entry is a run of its own. -/
theorem runs_replicate_append {a : α} {l : List α} {rs : List (α × Nat)} (hl : runs l = rs)
    (h : ∀ r ∈ rs.head?, a ≠ r.1) (n : Nat) :
    runs (List.replicate (n + 1) a ++ l) = (a, n + 1) :: rs := by
  induction n with
  | zero =>
    show extendRuns a (runs l) = _
    rw [hl]
    cases rs with
    | nil => rfl
    | cons r rs => exact if_neg (h r rfl)
  | succ n ih =>
    rw [List.replicate_succ, List.cons_append, runs, ih, extendRuns_same]

/-- Entries in front of a run of theirs make it longer. -/
theorem runs_replicate_append_same {a : α} {l : List α} {m : Nat} {rs : List (α × Nat)}
    (hl : runs l = (a, m) :: rs) (n : Nat) :
    runs (List.replicate n a ++ l) = (a, m + n) :: rs := by
  induction n with
  | zero => exact hl
  | succ n ih =>
    rw [List.replicate_succ, List.cons_append, runs, ih, extendRuns_same]
    rfl

theorem IsRuns.runs_eq {rs : List (α × Nat)} {l : List α} (h : IsRuns l rs) : runs l = rs := by
  induction rs generalizing l with
  | nil => rw [← h.unrun_eq]; rfl
  | cons r rs ih =>
    obtain ⟨a, n⟩ := r
    have hpos : 0 < n := h.pos (a, n) (.head rs)
    obtain ⟨n, rfl⟩ : ∃ m, n = m + 1 := ⟨n - 1, by omega⟩
    rw [← h.unrun_eq]
    refine runs_replicate_append (ih h.tail) ?_ n
    intro r hr
    cases rs with
    | nil => exact nomatch hr
    | cons r' rs =>
      obtain rfl : r' = r := Option.some.inj hr
      exact (List.isChain_cons_cons.1 h.differ).1

/-- The runs of a list are the only ones. -/
theorem isRuns_iff {l : List α} {rs : List (α × Nat)} : IsRuns l rs ↔ rs = runs l := by
  refine ⟨fun h => h.runs_eq.symm, ?_⟩
  rintro rfl
  exact isRuns_runs l

end CLib
