import Mathlib.Data.List.Basic
import Mathlib.Data.List.Range
import Mathlib.Data.List.Nodup

/-!
# Runs that may stop at an assertion

Pure C code with assertions and arrays, as a computation in `Option`: `none` is a failed
assertion or an access outside an array.

- `assert`: goes on when the condition holds.
- `Gives m P`: total correctness. The run `m` comes to its end, and what it returns
  satisfies `P`.
- `loop n body`: `for (i = 0; i < n; i++)`, with the loop's variables as its state.
- `loop_gives`: the rule of the loop, with an invariant indexed by the round.
- `foldlM_gives`: the rule for visits to the places of a list, which is what loops inside of
  a loop are (`loop_foldlM`).
-/

namespace CLib

variable {α β σ : Type}

/-- `assert(p)`. -/
def assert (p : Prop) [Decidable p] : Option Unit := if p then some () else none

@[simp] theorem assert_of {p : Prop} [Decidable p] (h : p) : assert p = some () := by
  simp [assert, h]

theorem some_bind {α β : Type} (a : α) (k : α → Option β) : (some a >>= k) = k a := rfl

theorem assert_bind {p : Prop} [Decidable p] (h : p) (k : Unit → Option α) :
    (assert p >>= k) = k () := by
  rw [assert_of h]
  rfl

/-- The run `m` comes to its end, and its result satisfies `P`. -/
def Gives (m : Option α) (P : α → Prop) : Prop := ∃ a, m = some a ∧ P a

theorem gives_some {a : α} {P : α → Prop} (h : P a) : Gives (some a) P := ⟨a, rfl, h⟩

@[simp] theorem gives_some_iff {a : α} {P : α → Prop} : Gives (some a) P ↔ P a := by
  simp [Gives]

theorem Gives.mono {m : Option α} {P Q : α → Prop} (h : Gives m P) (hPQ : ∀ a, P a → Q a) :
    Gives m Q := by
  obtain ⟨a, hm, ha⟩ := h
  exact ⟨a, hm, hPQ a ha⟩

theorem Gives.bind {m : Option α} {k : α → Option β} {P : α → Prop} {Q : β → Prop}
    (h : Gives m P) (hk : ∀ a, P a → Gives (k a) Q) : Gives (m >>= k) Q := by
  obtain ⟨a, rfl, ha⟩ := h
  exact hk a ha

/-- The result of a run that is known to come to its end. -/
theorem Gives.of_eq {m : Option α} {P : α → Prop} {a : α} (h : Gives m P) (hm : m = some a) :
    P a := by
  obtain ⟨b, hb, hP⟩ := h
  rw [hm, Option.some.injEq] at hb
  exact hb ▸ hP

/-! ## Loops -/

/-- `for (i = 0; i < n; i++) body`, over the variables that the body changes. -/
def loop : Nat → (Nat → σ → Option σ) → σ → Option σ
  | 0, _, s => some s
  | n + 1, body, s => loop n body s >>= body n

@[simp] theorem loop_zero (body : Nat → σ → Option σ) (s : σ) : loop 0 body s = some s := rfl

theorem loop_succ (n : Nat) (body : Nat → σ → Option σ) (s : σ) :
    loop (n + 1) body s = loop n body s >>= body n := rfl

/-- A loop that has stopped stays so. -/
theorem loop_none_mono {k n : Nat} {body : Nat → σ → Option σ} {s : σ} (hk : k ≤ n)
    (h : loop k body s = none) : loop n body s = none := by
  induction hk with
  | refl => exact h
  | step _ ih =>
    rw [loop_succ, ih]
    rfl

/-- The rule of the loop: what holds before a round holds, of the next index, after it. -/
theorem loop_gives (I : Nat → σ → Prop) {n : Nat} {body : Nat → σ → Option σ} {s : σ}
    (h0 : I 0 s) (hstep : ∀ i < n, ∀ s, I i s → Gives (body i s) (I (i + 1))) :
    Gives (loop n body s) (I n) := by
  induction n with
  | zero => exact gives_some h0
  | succ n ih =>
    rw [loop_succ]
    have hn := ih fun i hi => hstep i (Nat.lt_succ_of_lt hi)
    exact hn.bind fun s hs => hstep n (Nat.lt_succ_self n) s hs

/-- Two bodies that do the same make the same loop. -/
theorem loop_congr {n : Nat} {body body' : Nat → σ → Option σ} {s : σ}
    (h : ∀ i < n, ∀ s, body i s = body' i s) : loop n body s = loop n body' s := by
  induction n with
  | zero => rfl
  | succ n ih =>
    rw [loop_succ, loop_succ, ih fun i hi => h i (Nat.lt_succ_of_lt hi)]
    cases loop n body' s with
    | none => rfl
    | some s' => exact h n (Nat.lt_succ_self n) s'

/-- Loops inside of a loop: one visit to each place, in the order of the loops. -/
theorem loop_foldlM {n : Nat} {places : Nat → List α} {visit : σ → α → Option σ} {s : σ} :
    loop n (fun i s => (places i).foldlM visit s) s =
      ((List.range n).flatMap places).foldlM visit s := by
  induction n with
  | zero => rfl
  | succ n ih =>
    rw [loop_succ, ih, List.range_succ, List.flatMap_append, List.flatMap_singleton,
      List.foldlM_append]

theorem loop_visits {n : Nat} {place : Nat → α} {visit : σ → α → Option σ} {s : σ} :
    loop n (fun i s => visit s (place i)) s = ((List.range n).map place).foldlM visit s := by
  have hone : ∀ i < n, ∀ s, visit s (place i) = [place i].foldlM visit s := by
    intro i _ s
    simp
  rw [loop_congr hone, loop_foldlM, List.map_eq_flatMap]

/-- The places of two loops, each of them once. -/
theorem nodup_flatMap_range {n : Nat} {places : Nat → List α} (hin : ∀ i < n, (places i).Nodup)
    (hapart : ∀ i < n, ∀ j < n, ∀ a ∈ places i, a ∈ places j → i = j) :
    ((List.range n).flatMap places).Nodup := by
  rw [List.nodup_flatMap]
  refine ⟨fun i hi => hin i (List.mem_range.1 hi), ?_⟩
  refine List.nodup_range.imp_of_mem fun {i j} hi hj hne => ?_
  rw [List.mem_range] at hi hj
  exact fun a ha ha' => hne (hapart i hi j hj a ha ha')

/-- A loop whose rounds append to a list. -/
theorem loop_append {n : Nat} {body : Nat → List α → Option (List α)} {g : Nat → List α}
    {s : List α} (h : ∀ i < n, ∀ s, body i s = some (s ++ g i)) :
    loop n body s = some (s ++ (List.range n).flatMap g) := by
  induction n with
  | zero => simp
  | succ n ih =>
    rw [loop_succ, ih fun i hi => h i (Nat.lt_succ_of_lt hi), some_bind, h n (Nat.lt_succ_self n),
      List.range_succ, List.flatMap_append, List.flatMap_singleton, List.append_assoc]

/-- Pieces of one length, end to end: entry `j` of piece `i`. -/
theorem getElem?_flatMap_range {n w : Nat} {g : Nat → List α} (hw : ∀ i < n, (g i).length = w)
    {i j : Nat} (hi : i < n) (hj : j < w) :
    ((List.range n).flatMap g)[i * w + j]? = (g i)[j]? := by
  have hlen : ∀ m ≤ n, ((List.range m).flatMap g).length = m * w := by
    intro m hm
    induction m with
    | zero => simp
    | succ m ih =>
      rw [List.range_succ, List.flatMap_append, List.flatMap_singleton, List.length_append,
        ih (by omega), hw m (by omega), Nat.succ_mul]
  induction n with
  | zero => omega
  | succ n ih =>
    rw [List.range_succ, List.flatMap_append, List.flatMap_singleton]
    by_cases hin : i < n
    · have hmul : (i + 1) * w ≤ n * w := Nat.mul_le_mul_right w hin
      rw [Nat.succ_mul] at hmul
      rw [List.getElem?_append_left (by rw [hlen n (by omega)]; omega)]
      exact ih (fun i hi => hw i (by omega)) hin fun m hm => hlen m (by omega)
    · have heq : i = n := by omega
      rw [List.getElem?_append_right (by rw [hlen n (by omega), heq]; omega), hlen n (by omega), heq,
        Nat.add_sub_cancel_left]

/-- The rule of the visits, with an invariant indexed by what was visited. -/
theorem foldlM_gives (I : List α → σ → Prop) {places : List α} {visit : σ → α → Option σ} {s : σ}
    (h0 : I [] s) (hstep : ∀ seen a, seen ++ [a] <+: places → ∀ s, I seen s →
      Gives (visit s a) (I (seen ++ [a]))) : Gives (places.foldlM visit s) (I places) := by
  induction places using List.reverseRecOn with
  | nil => exact gives_some h0
  | append_singleton seen a ih =>
    rw [List.foldlM_append]
    have hseen : Gives (seen.foldlM visit s) (I seen) :=
      ih fun seen' a' hpre => hstep seen' a' (hpre.trans (List.prefix_append seen [a]))
    refine hseen.bind fun s' hs' => ?_
    have hlast := hstep seen a (List.prefix_refl _) s' hs'
    simpa using hlast

/-! ## Sums -/

/-- The numbers of a list together. -/
def total : List Nat → Nat
  | [] => 0
  | m :: ms => m + total ms

theorem total_append (ms ms' : List Nat) : total (ms ++ ms') = total ms + total ms' := by
  induction ms with
  | nil => exact (Nat.zero_add _).symm
  | cons m ms ih => rw [List.cons_append, total, total, ih, Nat.add_assoc]

theorem total_replicate (n m : Nat) : total (List.replicate n m) = n * m := by
  induction n with
  | zero => exact (Nat.zero_mul m).symm
  | succ n ih => rw [List.replicate_succ, total, ih, Nat.succ_mul, Nat.add_comm]

theorem total_map_range_le {n bound : Nat} {g : Nat → Nat} (h : ∀ i < n, g i ≤ bound) :
    total ((List.range n).map g) ≤ n * bound := by
  induction n with
  | zero => exact Nat.zero_le _
  | succ n ih =>
    have hlast := h n (Nat.lt_succ_self n)
    have hrest := ih fun i hi => h i (Nat.lt_succ_of_lt hi)
    rw [List.range_succ, List.map_append, total_append, Nat.succ_mul]
    exact Nat.add_le_add hrest (by simpa [total] using hlast)

/-- A loop whose rounds add to a number. -/
theorem loop_total {n : Nat} {body : Nat → Nat → Option Nat} {g : Nat → Nat} {r : Nat}
    (h : ∀ i < n, ∀ r, body i r = some (r + g i)) :
    loop n body r = some (r + total ((List.range n).map g)) := by
  induction n with
  | zero => rfl
  | succ n ih =>
    rw [loop_succ, ih fun i hi => h i (Nat.lt_succ_of_lt hi), some_bind, h n (Nat.lt_succ_self n),
      List.range_succ, List.map_append, total_append, Nat.add_assoc]
    rfl

/-- Visits that count. -/
theorem foldlM_countP {places : List α} {visit : Nat → α → Option Nat} {p : α → Bool} {c r : Nat}
    (h : ∀ a ∈ places, ∀ r, visit r a = some (if p a then r + c else r)) :
    places.foldlM visit r = some (r + places.countP p * c) := by
  induction places generalizing r with
  | nil => simp
  | cons a places ih =>
    rw [List.foldlM_cons, h a (List.mem_cons_self ..), some_bind,
      ih fun b hb => h b (List.mem_cons_of_mem a hb), List.countP_cons, Nat.add_mul]
    split
    · rw [Nat.one_mul, Nat.add_assoc, Nat.add_comm c]
    · rw [Nat.zero_mul, Nat.add_zero]

end CLib
