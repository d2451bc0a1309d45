import Mathlib.Data.List.Basic
import Mathlib.Data.List.Induction

/-!
# Allocations, releases and uses

What a program does to the buffers it allocates, as a list of `HeapOp`s. A list is
`Disciplined` when each buffer is fresh at its allocation, and allocated and not
yet released at its release and at every use. `Owns` is the invariant of a program
that keeps its live buffers in named slots: every slot holds a live buffer, and no
two slots hold the same one.

- `Disciplined.free_le_one`: no buffer is released twice.
- `Disciplined.live_of_use`: no buffer is used after its release.
- `Owns.alloc`, `Owns.free`, `Owns.use`: the steps that keep the invariant.
-/

namespace CLib

inductive HeapOp (ι : Type) where
  | alloc (b : ι)
  | free (b : ι)
  | use (bs : List ι)
  deriving DecidableEq

variable {ι : Type}

/-- Allocated, and not released. -/
def Live (o : List (HeapOp ι)) (b : ι) : Prop := .alloc b ∈ o ∧ .free b ∉ o

/-- What may come after `o`. -/
def HeapOp.Allowed (o : List (HeapOp ι)) : HeapOp ι → Prop
  | alloc b => .alloc b ∉ o ∧ .free b ∉ o
  | free b => Live o b
  | use bs => ∀ b ∈ bs, Live o b

/-- Each operation is allowed where it stands. -/
inductive Disciplined : List (HeapOp ι) → Prop where
  | nil : Disciplined []
  | snoc {o : List (HeapOp ι)} {e : HeapOp ι} :
      Disciplined o → e.Allowed o → Disciplined (o ++ [e])

/-! ## What a discipline is good for -/

theorem Disciplined.of_append {o o' : List (HeapOp ι)} (h : Disciplined (o ++ o')) :
    Disciplined o := by
  induction o' using List.reverseRecOn with
  | nil => rwa [List.append_nil] at h
  | append_singleton o' e ih =>
    -- the last operation goes, and the last step of the derivation with it
    rw [← List.append_assoc] at h
    generalize hl : o ++ o' ++ [e] = l at h
    cases h with
    | nil => simp at hl
    | snoc h hallowed =>
      rw [(List.append_inj' hl rfl).1] at ih
      exact ih h

/-- The last operation was allowed. -/
theorem Disciplined.allowed {o : List (HeapOp ι)} {e : HeapOp ι} (h : Disciplined (o ++ [e])) :
    e.Allowed o := by
  generalize hl : o ++ [e] = l at h
  cases h with
  | nil => simp at hl
  | snoc h hallowed =>
    obtain ⟨rfl, he⟩ := List.append_inj' hl rfl
    cases he
    exact hallowed

/-- So was every other one. -/
theorem Disciplined.allowed_at {o o' : List (HeapOp ι)} {e : HeapOp ι}
    (h : Disciplined (o ++ e :: o')) : e.Allowed o := by
  rw [List.append_cons] at h
  exact h.of_append.allowed

/-- No use after the release. -/
theorem Disciplined.live_of_use {o o' : List (HeapOp ι)} {bs : List ι}
    (h : Disciplined (o ++ .use bs :: o')) {b : ι} (hb : b ∈ bs) : Live o b :=
  h.allowed_at b hb

/-- No second release. -/
theorem Disciplined.free_le_one [DecidableEq ι] {o : List (HeapOp ι)} (h : Disciplined o)
    (b : ι) : o.count (.free b) ≤ 1 := by
  induction h with
  | nil => simp
  | @snoc o e h hallowed ih =>
    rw [List.count_append]
    by_cases he : e = .free b
    · subst he
      rw [List.count_eq_zero_of_not_mem hallowed.2]
      simp
    · rw [List.count_singleton, if_neg (by simpa using he)]
      exact ih

/-! ## Slots -/

/-- The live buffers are in the slots `slots`, those released or allocated before
are not in `F`. -/
structure Owns (F : ι → Prop) (slots : List ι) (o : List (HeapOp ι)) : Prop where
  disciplined : Disciplined o
  live : ∀ b ∈ slots, Live o b
  nodup : slots.Nodup
  alloc_old : ∀ b, .alloc b ∈ o → ¬ F b
  free_old : ∀ b, .free b ∈ o → ¬ F b

variable {F G : ι → Prop} {slots slots' : List ι} {o : List (HeapOp ι)}

theorem Owns.nil : Owns F [] ([] : List (HeapOp ι)) :=
  ⟨.nil, by simp, List.nodup_nil, by simp, by simp⟩

/-- Buffers may be forgotten, and buffers may be taken by others. -/
theorem Owns.mono (h : Owns F slots o) (hslots : slots'.Sublist slots)
    (hfresh : ∀ b, G b → F b) : Owns G slots' o :=
  ⟨h.disciplined, fun b hb => h.live b (hslots.subset hb), h.nodup.sublist hslots,
    fun b hb hf => h.alloc_old b hb (hfresh b hf), fun b hb hf => h.free_old b hb (hfresh b hf)⟩

theorem Owns.perm (h : Owns F slots o) (hslots : slots.Perm slots') :
    Owns F slots' o :=
  ⟨h.disciplined, fun b hb => h.live b (hslots.mem_iff.mpr hb), hslots.nodup_iff.mp h.nodup,
    h.alloc_old, h.free_old⟩

theorem Owns.alloc (h : Owns F slots o) {b : ι} (hb : F b) (hb' : ¬ G b)
    (hfresh : ∀ b, G b → F b) : Owns G (b :: slots) (o ++ [.alloc b]) where
  disciplined := h.disciplined.snoc ⟨fun hm => h.alloc_old b hm hb, fun hm => h.free_old b hm hb⟩
  live c hc := by
    rcases List.mem_cons.mp hc with rfl | hc
    -- the new buffer: what is fresh has not been released before
    · exact ⟨by simp, by simpa using fun hm => h.free_old c hm hb⟩
    · exact ⟨List.mem_append_left _ (h.live c hc).1, by simpa using (h.live c hc).2⟩
  nodup := List.nodup_cons.mpr ⟨fun hm => h.alloc_old b (h.live b hm).1 hb, h.nodup⟩
  alloc_old c hc hf := by
    rcases List.mem_append.mp hc with hc | hc
    · exact h.alloc_old c hc (hfresh c hf)
    · cases List.mem_singleton.mp hc
      exact hb' hf
  free_old c hc hf := h.free_old c (by simpa using hc) (hfresh c hf)

theorem Owns.free {b : ι} (h : Owns F (b :: slots) o) :
    Owns F slots (o ++ [.free b]) where
  disciplined := h.disciplined.snoc (h.live b (List.mem_cons_self ..))
  live c hc := by
    obtain ⟨halloc, hfree⟩ := h.live c (List.mem_cons_of_mem _ hc)
    have hne : c ≠ b := fun heq => (List.nodup_cons.mp h.nodup).1 (heq ▸ hc)
    exact ⟨List.mem_append_left _ halloc, by simp [hfree, hne]⟩
  nodup := (List.nodup_cons.mp h.nodup).2
  alloc_old c hc := h.alloc_old c (by simpa using hc)
  free_old c hc := by
    rcases List.mem_append.mp hc with hc | hc
    · exact h.free_old c hc
    · cases List.mem_singleton.mp hc
      exact h.alloc_old b (h.live b (List.mem_cons_self ..)).1

theorem Owns.use (h : Owns F slots o) {bs : List ι} (hbs : bs ⊆ slots) :
    Owns F slots (o ++ [.use bs]) where
  disciplined := h.disciplined.snoc fun b hb => h.live b (hbs hb)
  live b hb := ⟨List.mem_append_left _ (h.live b hb).1, by simpa using (h.live b hb).2⟩
  nodup := h.nodup
  alloc_old b hb := h.alloc_old b (by simpa using hb)
  free_old b hb := h.free_old b (by simpa using hb)

end CLib
