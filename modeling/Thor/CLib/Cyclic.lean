import Mathlib.Algebra.BigOperators.Group.Finset.Basic
import Mathlib.Algebra.CharP.Two
import Mathlib.Data.List.GetD
import Mathlib.LinearAlgebra.Vandermonde
import Mathlib.Tactic.LinearCombination

/-!
# Words with prescribed roots

A word over a ring is a list, read as a polynomial whose leading coefficient comes first. A
code that is given by roots has as its words those that vanish at all of them.

- `horner a l`: the value of a word at a point.
- `timesRoot`: a monic polynomial, without its leading coefficient, times `X + r`;
  `generator`: the product for a list of roots.
- `register`: the remainder after division by a monic polynomial, as a shift register
  computes it. `horner_append_register`: a message and its remainder, one behind the other,
  vanish at every root.
- `eq_zero_of_roots`: a word with at most `d` entries that are not zero, and with `d`
  consecutive powers as roots, is zero. This is Vandermonde's determinant.
- `eq_of_distance_le`, `eq_of_near`: so two words of such a code are far from each other, and
  at most one is near to what was received.

Rings are of characteristic two, so that a sum is also a difference.
-/

namespace CLib

variable {R : Type}

/-! ## Words as polynomials -/

section Ring

variable [CommRing R]

/-- The value of a word at a point. -/
def horner (a : R) (l : List R) : R := l.foldl (fun v c => v * a + c) 0

@[simp] theorem horner_nil (a : R) : horner a [] = 0 := rfl

theorem foldl_horner (a v : R) (l : List R) :
    l.foldl (fun v c => v * a + c) v = v * a ^ l.length + horner a l := by
  induction l generalizing v with
  | nil => simp [horner]
  | cons c l ih =>
    rw [List.foldl_cons, ih, List.length_cons]
    conv_rhs => arg 2; rw [horner, List.foldl_cons, ih]
    ring

theorem horner_cons (a c : R) (l : List R) : horner a (c :: l) = c * a ^ l.length + horner a l := by
  rw [horner, List.foldl_cons, foldl_horner]
  ring

theorem horner_append (a : R) (l l' : List R) :
    horner a (l ++ l') = horner a l * a ^ l'.length + horner a l' := by
  rw [horner, List.foldl_append, foldl_horner a (List.foldl _ _ _) l']
  rfl

theorem horner_concat (a : R) (l : List R) (c : R) : horner a (l ++ [c]) = horner a l * a + c := by
  rw [horner, List.foldl_append]
  rfl

theorem horner_map {S : Type} [CommRing S] (φ : R →+* S) (a : R) (l : List R) :
    horner (φ a) (l.map φ) = φ (horner a l) := by
  induction l using List.reverseRecOn with
  | nil => simp
  | append_singleton l c ih =>
    rw [List.map_append, List.map_singleton, horner_concat, horner_concat, ih, map_add, map_mul]

/-- Words of one length, added place by place. -/
theorem horner_zipWith_add (a : R) {l l' : List R} (h : l.length = l'.length) :
    horner a (List.zipWith (· + ·) l l') = horner a l + horner a l' := by
  induction l generalizing l' with
  | nil =>
    rw [List.length_eq_zero_iff.1 h.symm]
    simp
  | cons c l ih =>
    obtain _ | ⟨c', l'⟩ := l'
    · simp at h
    have hlen : l.length = l'.length := by simpa using h
    rw [List.zipWith_cons_cons, horner_cons, horner_cons, horner_cons, ih hlen,
      List.length_zipWith, hlen, Nat.min_self]
    ring

theorem horner_map_mul (a r : R) (l : List R) : horner a (l.map (r * ·)) = r * horner a l := by
  induction l with
  | nil => simp
  | cons c l ih =>
    rw [List.map_cons, horner_cons, horner_cons, ih, List.length_map]
    ring

theorem horner_replicate_zero (a : R) (n : Nat) (l : List R) :
    horner a (List.replicate n 0 ++ l) = horner a l := by
  induction n with
  | zero => rfl
  | succ n ih =>
    rw [List.replicate_succ, List.cons_append, horner_cons, ih]
    ring

/-- The value of a word as a sum over its places, counted from its end. -/
theorem horner_eq_sum (a : R) (l : List R) :
    horner a l = ∑ k ∈ Finset.range l.length, l.reverse.getD k 0 * a ^ k := by
  induction l using List.reverseRecOn with
  | nil => rfl
  | append_singleton l c ih =>
    rw [horner_concat, ih, List.length_append, List.length_singleton, Finset.sum_range_succ',
      List.reverse_append, List.reverse_singleton, Finset.sum_mul]
    simp only [List.singleton_append, List.getD_cons_succ, List.getD_cons_zero, pow_zero, mul_one]
    congr 1
    refine Finset.sum_congr rfl fun k _ => ?_
    ring

theorem getElem?_concat_zero {l : List R} {j : Nat} (h : j ≤ l.length) :
    (l ++ [0])[j]? = some (l.getD j 0) := by
  by_cases hj : j < l.length
  · rw [List.getElem?_append_left hj, List.getElem?_eq_getElem hj, List.getD_eq_getElem _ _ hj]
  · rw [List.getElem?_append_right (by omega), List.getD_eq_default _ _ (by omega),
      show j - l.length = 0 by omega]
    rfl

/-- A word moved up by one place. -/
theorem getElem?_tail_concat {l : List R} {j : Nat} (h : j < l.length) :
    (l.tail ++ [0])[j]? = some (l.getD (j + 1) 0) := by
  obtain _ | ⟨c, l⟩ := l
  · simp at h
  · rw [List.tail_cons, List.getD_cons_succ]
    exact getElem?_concat_zero (by simpa using Nat.le_of_lt_succ h)

/-! ## The product of linear factors -/

/-- The coefficients below the leading one, of a monic polynomial times `X + r`. -/
def timesRoot (r : R) (m : List R) : List R :=
  List.zipWith (· + ·) ((1 :: m).map (r * ·)) (m ++ [0])

@[simp] theorem length_timesRoot (r : R) (m : List R) :
    (timesRoot r m).length = m.length + 1 := by
  simp [timesRoot]

theorem horner_timesRoot (a r : R) (m : List R) :
    horner a (1 :: timesRoot r m) = horner a (1 :: m) * (a + r) := by
  rw [horner_cons, length_timesRoot, timesRoot, horner_zipWith_add _ (by simp), horner_map_mul,
    horner_concat, horner_cons]
  ring

/-- The coefficients below the leading one, of the product of `X + r` over some `r`. -/
def generator (roots : List R) : List R := roots.foldl (fun m r => timesRoot r m) []

theorem generator_concat (roots : List R) (r : R) :
    generator (roots ++ [r]) = timesRoot r (generator roots) := by
  rw [generator, List.foldl_append]
  rfl

@[simp] theorem length_generator (roots : List R) : (generator roots).length = roots.length := by
  induction roots using List.reverseRecOn with
  | nil => rfl
  | append_singleton roots r ih => rw [generator_concat, length_timesRoot, ih]; simp

theorem horner_generator (a : R) (roots : List R) :
    horner a (1 :: generator roots) = (roots.map (a + ·)).prod := by
  induction roots using List.reverseRecOn with
  | nil => simp [generator, horner]
  | append_singleton roots r ih =>
    rw [generator_concat, horner_timesRoot, ih, List.map_append, List.prod_append]
    simp

/-- The same in place, over an array as long as the product will be: the leading coefficient
falls off at the last factor. -/
def timesRootIn (r : R) (l : List R) : List R :=
  List.zipWith (· + ·) (l.map (r * ·)) (l.tail ++ [0])

theorem timesRootIn_one (r : R) (m : List R) : timesRootIn r (1 :: m) = timesRoot r m := rfl

theorem timesRootIn_pad (r : R) (n : Nat) (m : List R) :
    timesRootIn r (List.replicate (n + 1) 0 ++ 1 :: m) =
      List.replicate n 0 ++ 1 :: timesRoot r m := by
  induction n with
  | zero => simp [timesRootIn, timesRoot]
  | succ n ih =>
    -- two zeros at the front give one, and the rest is as before
    have hcons : ∀ l : List R, timesRootIn r (0 :: 0 :: l) = 0 :: timesRootIn r (0 :: l) := by
      intro l
      simp [timesRootIn]
    rw [List.replicate_succ, List.replicate_succ, List.cons_append, List.cons_append, hcons,
      ← List.cons_append, ← List.replicate_succ, ih, List.replicate_succ, List.cons_append]

@[simp] theorem length_timesRootIn (r : R) (l : List R) : (timesRootIn r l).length = l.length := by
  rw [timesRootIn, List.length_zipWith, List.length_map, List.length_append, List.length_tail,
    List.length_singleton]
  omega

theorem getElem?_timesRootIn {r : R} {l : List R} {j : Nat} (h : j < l.length) :
    (timesRootIn r l)[j]? = some (r * l.getD j 0 + l.getD (j + 1) 0) := by
  rw [timesRootIn, List.getElem?_zipWith, List.getElem?_map, List.getElem?_eq_getElem h,
    getElem?_tail_concat h, List.getD_eq_getElem _ _ h]
  rfl

/-! ## The shift register -/

/-- One step of the division: the next entry of the message goes in, and a multiple of the
divisor comes off. -/
def registerStep (gen r : List R) (d : R) : List R :=
  List.zipWith (· + ·) (r.tail ++ [0]) (gen.map (fun g => g * (d + r.headD 0)))

/-- The remainder of a message shifted up by the length of the divisor. -/
def register (gen message : List R) : List R :=
  message.foldl (registerStep gen) (List.replicate gen.length 0)

theorem length_registerStep {gen r : List R} (h : r.length = gen.length) (d : R) :
    (registerStep gen r d).length = gen.length := by
  rw [registerStep, List.length_zipWith, List.length_append, List.length_tail, List.length_map, h]
  simp only [List.length_singleton]
  omega

theorem getElem?_registerStep {gen r : List R} (h : r.length = gen.length) (d : R) {j : Nat}
    (hj : j < gen.length) : (registerStep gen r d)[j]? =
      some (r.getD (j + 1) 0 + gen.getD j 0 * (d + r.getD 0 0)) := by
  have hhead : r.headD 0 = r.getD 0 0 := by cases r <;> rfl
  rw [registerStep, List.getElem?_zipWith, getElem?_tail_concat (h ▸ hj), List.getElem?_map,
    List.getElem?_eq_getElem hj, List.getD_eq_getElem gen _ hj, hhead]
  rfl

/-- At a root of the divisor, a step multiplies by the point and adds what goes in. -/
theorem horner_registerStep [CharP R 2] {a : R} {gen : List R} (hroot : horner a (1 :: gen) = 0)
    {r : List R} (h : r.length = gen.length) (d : R) :
    horner a (registerStep gen r d) = horner a r * a + d * a ^ gen.length := by
  have htwo : (2 : R) = 0 := CharTwo.two_eq_zero
  rw [horner_cons, one_mul] at hroot
  have hmap : horner a (gen.map fun g => g * (d + r.headD 0)) =
      (d + r.headD 0) * horner a gen := by
    rw [← horner_map_mul]
    simp only [mul_comm]
  obtain _ | ⟨r0, r'⟩ := r
  · -- no place in the register: the divisor is constant
    have hnil : gen = [] := List.length_eq_zero_iff.1 h.symm
    subst hnil
    simp only [List.length_nil, pow_zero, horner_nil, add_zero] at hroot
    simp [registerStep, hroot]
  · have hlen : (r' ++ [(0 : R)]).length = (gen.map fun g => g * (d + r0)).length := by
      simpa using h
    rw [registerStep, List.tail_cons, List.headD_cons, horner_zipWith_add _ hlen, horner_concat]
    rw [List.headD_cons] at hmap
    rw [hmap, horner_cons, ← h, List.length_cons, pow_succ]
    rw [← h, List.length_cons, pow_succ] at hroot
    linear_combination (d + r0) * hroot - (d + r0) * a ^ r'.length * a * htwo

theorem register_concat (gen message : List R) (d : R) :
    register gen (message ++ [d]) = registerStep gen (register gen message) d := by
  rw [register, List.foldl_append]
  rfl

@[simp] theorem length_register (gen message : List R) :
    (register gen message).length = gen.length := by
  induction message using List.reverseRecOn with
  | nil => simp [register]
  | append_singleton message d ih => rw [register_concat, length_registerStep ih]

theorem horner_register [CharP R 2] {a : R} {gen : List R} (hroot : horner a (1 :: gen) = 0)
    (message : List R) : horner a (register gen message) = horner a message * a ^ gen.length := by
  induction message using List.reverseRecOn with
  | nil =>
    have h := horner_replicate_zero a gen.length []
    rw [List.append_nil] at h
    simpa [register] using h
  | append_singleton message d ih =>
    rw [register_concat, horner_registerStep hroot (length_register gen message), ih,
      horner_concat]
    ring

/-- A message with its remainder behind it vanishes at the roots of the divisor. -/
theorem horner_append_register [CharP R 2] {a : R} {gen : List R}
    (hroot : horner a (1 :: gen) = 0) (message : List R) :
    horner a (message ++ register gen message) = 0 := by
  rw [horner_append, length_register, horner_register hroot]
  exact CharTwo.add_self_eq_zero _

end Ring

/-! ## Distance -/

section Distance

variable [DecidableEq R]

/-- The number of places at which two words differ. -/
def distance (l l' : List R) : Nat := (l.zip l').countP fun p => decide (p.1 ≠ p.2)

theorem distance_cons (c c' : R) (l l' : List R) :
    distance (c :: l) (c' :: l') = distance l l' + if c = c' then 0 else 1 := by
  rw [distance, List.zip_cons_cons, List.countP_cons, distance]
  by_cases h : c = c' <;> simp [h]

@[simp] theorem distance_self (l : List R) : distance l l = 0 := by
  induction l with
  | nil => rfl
  | cons c l ih => rw [distance_cons, ih, if_pos rfl]

theorem distance_map {S : Type} [DecidableEq S] {φ : R → S} (hφ : Function.Injective φ)
    (l l' : List R) : distance (l.map φ) (l'.map φ) = distance l l' := by
  induction l generalizing l' with
  | nil => rfl
  | cons c l ih =>
    obtain _ | ⟨c', l'⟩ := l'
    · rfl
    rw [List.map_cons, List.map_cons, distance_cons, distance_cons, ih]
    simp only [hφ.eq_iff]

theorem distance_comm {l l' : List R} (h : l.length = l'.length) : distance l l' = distance l' l := by
  induction l generalizing l' with
  | nil => rw [List.length_eq_zero_iff.1 h.symm]
  | cons c l ih =>
    obtain _ | ⟨c', l'⟩ := l'
    · simp at h
    rw [distance_cons, distance_cons, ih (by simpa using h)]
    simp only [eq_comm]

theorem distance_triangle {l l' l'' : List R} (h : l.length = l'.length)
    (h' : l'.length = l''.length) : distance l l'' ≤ distance l l' + distance l' l'' := by
  induction l generalizing l' l'' with
  | nil => simp [distance]
  | cons c l ih =>
    obtain _ | ⟨c', l'⟩ := l'
    · simp at h
    obtain _ | ⟨c'', l''⟩ := l''
    · simp at h'
    have ih := @ih l' l'' (by simpa using h) (by simpa using h')
    rw [distance_cons, distance_cons, distance_cons]
    by_cases h1 : c = c'
    · subst h1
      simp only [if_true]
      omega
    · rw [if_neg h1]
      split <;> split <;> omega

/-- The entries that are not zero, counted along the word and over its places. -/
theorem card_filter_getD [Zero R] (l : List R) :
    ((Finset.range l.length).filter fun k => l.getD k 0 ≠ 0).card =
      l.countP fun c => decide (c ≠ 0) := by
  induction l using List.reverseRecOn with
  | nil => rfl
  | append_singleton l c ih =>
    rw [List.length_append, List.length_singleton, Finset.range_add_one, Finset.filter_insert,
      List.countP_append]
    have hsame : (Finset.range l.length).filter (fun k => (l ++ [c]).getD k 0 ≠ 0) =
        (Finset.range l.length).filter fun k => l.getD k 0 ≠ 0 := by
      refine Finset.filter_congr fun k hk => ?_
      rw [List.getD_append _ _ _ _ (Finset.mem_range.1 hk)]
    have hlast : (l ++ [c]).getD l.length 0 = c := by
      rw [List.getD_append_right _ _ _ _ (Nat.le_refl _), Nat.sub_self, List.getD_cons_zero]
    rw [hsame, hlast]
    by_cases hc : c = 0
    · rw [if_neg (by simpa using hc), ih]
      simp [hc]
    · rw [if_pos hc, Finset.card_insert_of_notMem (by simp), ih]
      simp [hc]

theorem eq_of_distance_eq_zero {l l' : List R} (hlen : l.length = l'.length)
    (h : distance l l' = 0) : l = l' := by
  induction l generalizing l' with
  | nil => exact (List.length_eq_zero_iff.1 hlen.symm).symm
  | cons c l ih =>
    obtain _ | ⟨c', l'⟩ := l'
    · simp at hlen
    rw [distance_cons] at h
    by_cases hc : c = c'
    · rw [hc, ih (by simpa using hlen) (by omega)]
    · rw [if_neg hc] at h
      omega

/-- In characteristic two the sum of two words shows where they differ. -/
theorem countP_zipWith_add [CommRing R] [CharP R 2] {l l' : List R}
    (hlen : l.length = l'.length) :
    (List.zipWith (· + ·) l l').countP (fun c => decide (c ≠ 0)) = distance l l' := by
  induction l generalizing l' with
  | nil => simp [distance]
  | cons c l ih =>
    obtain _ | ⟨c', l'⟩ := l'
    · simp at hlen
    rw [List.zipWith_cons_cons, List.countP_cons, distance_cons, ih (by simpa using hlen)]
    by_cases hc : c = c'
    · simp [hc, CharTwo.add_self_eq_zero]
    · have hne : c + c' ≠ 0 := by rwa [Ne, CharTwo.add_eq_zero]
      simp [hc, hne]

end Distance

/-! ## The distance between two words of a code -/

section Domain

variable [CommRing R] [IsDomain R]

/-- A word with consecutive powers as roots, and with at most as many entries that are not
zero, is zero. -/
theorem eq_zero_of_roots {α : R} {n d : Nat} {w : Nat → R}
    (hinj : Set.InjOn (fun k => α ^ k) {k | k < n})
    (hroots : ∀ j < d, ∑ k ∈ Finset.range n, w k * (α ^ j) ^ k = 0) [DecidableEq R]
    (hweight : ((Finset.range n).filter fun k => w k ≠ 0).card ≤ d) : ∀ k < n, w k = 0 := by
  generalize hS : (Finset.range n).filter (fun k => w k ≠ 0) = S at hweight
  have hmem : ∀ k, k ∈ S ↔ k < n ∧ w k ≠ 0 := by
    intro k
    rw [← hS, Finset.mem_filter, Finset.mem_range]
  -- the entries that are not zero, and the powers at their places
  let e := S.equivFin.symm
  have hzero := Matrix.eq_zero_of_forall_pow_sum_mul_pow_eq_zero
    (f := fun i => α ^ (e i : Nat)) (v := fun i => w (e i)) ?_ ?_
  · intro k hk
    by_contra hne
    have hin : k ∈ S := (hmem k).2 ⟨hk, hne⟩
    have := congrFun hzero (S.equivFin ⟨k, hin⟩)
    simp only [e, Equiv.symm_apply_apply, Pi.zero_apply] at this
    exact hne this
  · intro i j hij
    have h := hinj ((hmem _).1 (e i).2).1 ((hmem _).1 (e j).2).1 hij
    exact e.injective (Subtype.ext h)
  · intro j
    have hj : (j : Nat) < d := Nat.lt_of_lt_of_le j.2 hweight
    have hrest := Finset.sum_filter_of_ne (s := Finset.range n) (p := fun k => w k ≠ 0)
      (f := fun x => w x * (α ^ x) ^ (j : Nat)) fun x _ hx hw => hx (by rw [hw, zero_mul])
    rw [hS] at hrest
    rw [← hroots j hj]
    calc ∑ i, w (e i) * (α ^ (e i : Nat)) ^ (j : Nat)
        = ∑ x : S, w x * (α ^ (x : Nat)) ^ (j : Nat) :=
          Equiv.sum_comp e fun x : S => w x * (α ^ (x : Nat)) ^ (j : Nat)
      _ = ∑ x ∈ S, w x * (α ^ x) ^ (j : Nat) :=
          Finset.sum_coe_sort S fun x => w x * (α ^ x) ^ (j : Nat)
      _ = ∑ x ∈ Finset.range n, w x * (α ^ x) ^ (j : Nat) := hrest
      _ = ∑ x ∈ Finset.range n, w x * (α ^ (j : Nat)) ^ x := by
          refine Finset.sum_congr rfl fun x _ => ?_
          rw [← pow_mul, ← pow_mul, Nat.mul_comm]

/-- Two words of the code at a distance of at most `d`, with `d` consecutive powers as roots,
are one word. -/
theorem eq_of_distance_le [CharP R 2] [DecidableEq R] {α : R} {d : Nat} {l l' : List R}
    (hlen : l.length = l'.length) (hinj : Set.InjOn (fun k => α ^ k) {k | k < l.length})
    (hl : ∀ j < d, horner (α ^ j) l = 0) (hl' : ∀ j < d, horner (α ^ j) l' = 0)
    (hd : distance l l' ≤ d) : l = l' := by
  generalize hm : List.zipWith (· + ·) l l' = m
  have hmlen : m.reverse.length = l.length := by
    rw [List.length_reverse, ← hm, List.length_zipWith, hlen, Nat.min_self]
  -- the sum of the words is a word of the code, and has few entries
  have hroots : ∀ j < d, ∑ k ∈ Finset.range l.length, m.reverse.getD k 0 * (α ^ j) ^ k = 0 := by
    intro j hj
    have h := horner_eq_sum (α ^ j) m
    rw [← List.length_reverse, hmlen] at h
    rw [← h, ← hm, horner_zipWith_add _ hlen, hl j hj, hl' j hj, add_zero]
  have hcount := countP_zipWith_add hlen
  have hcard := card_filter_getD m.reverse
  rw [hmlen, List.countP_reverse, ← hm, hcount] at hcard
  have hzero := eq_zero_of_roots hinj hroots (by rw [← hm, hcard]; exact hd)
  refine eq_of_distance_eq_zero hlen ?_
  rw [← hcount, hm, ← List.countP_reverse, List.countP_eq_zero]
  intro c hc
  obtain ⟨k, hk, rfl⟩ := List.getElem_of_mem hc
  have h := hzero k (hmlen ▸ hk)
  rw [List.getD_eq_getElem _ _ hk] at h
  simp [h]

/-- At most one word of the code is within half of that of a received word. -/
theorem eq_of_near [CharP R 2] [DecidableEq R] {α : R} {d t : Nat} {l l' received : List R}
    (hlen : l.length = received.length) (hlen' : l'.length = received.length)
    (hinj : Set.InjOn (fun k => α ^ k) {k | k < l.length})
    (hl : ∀ j < d, horner (α ^ j) l = 0) (hl' : ∀ j < d, horner (α ^ j) l' = 0)
    (ht : 2 * t ≤ d) (hnear : distance l received ≤ t) (hnear' : distance l' received ≤ t) :
    l = l' := by
  refine eq_of_distance_le (hlen.trans hlen'.symm) hinj hl hl' ?_
  have htri := distance_triangle hlen hlen'.symm
  have hcomm := distance_comm hlen'
  omega

end Domain

end CLib
