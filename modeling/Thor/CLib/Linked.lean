import Mathlib.Data.List.Nodup
import Mathlib.Logic.Function.Basic

/-!
# Doubly linked lists

Nodes on a heap, linked forwards and backwards. A pointer is an address or, as `none`,
`NULL`.

- `Linked`: a stretch of such a list, between the node before it and the node after it.
  `linked_append` cuts a stretch in two, and `Linked.congr` says that it depends on its
  own addresses only.
- `Linked.setPrev`, `Linked.setNext`: the two ends of a stretch, linked to another node.
- `WellLinked`: what a reader who follows the pointers finds. `Linked.wellLinked` gets it
  from a stretch with `NULL` at both ends.
-/

namespace CLib

variable {ι δ : Type}

/-- A node: what it holds, and the two pointers. -/
structure DNode (ι δ : Type) where
  data : δ
  prev : Option ι
  next : Option ι

/-- The nodes at their addresses, `none` where nothing is allocated. -/
abbrev DHeap (ι δ : Type) := ι → Option (DNode ι δ)

/-! ## Stretches -/

/-- The first of some nodes, `after` if there are none. -/
def firstAddr : List (ι × δ) → Option ι → Option ι
  | [], after => after
  | p :: _, _ => some p.1

/-- The last of some nodes, `before` if there are none. -/
def lastAddr (before : Option ι) : List (ι × δ) → Option ι
  | [] => before
  | p :: l => lastAddr (some p.1) l

/-- The nodes of `l`, linked in this order, behind `before` and in front of `after`. -/
def Linked (h : DHeap ι δ) (before : Option ι) : List (ι × δ) → Option ι → Prop
  | [], _ => True
  | p :: l, after => h p.1 = some ⟨p.2, before, firstAddr l after⟩ ∧ Linked h (some p.1) l after

variable {h h' : DHeap ι δ} {before after : Option ι} {l l₁ l₂ : List (ι × δ)}

theorem firstAddr_append (l₁ l₂ : List (ι × δ)) (after : Option ι) :
    firstAddr (l₁ ++ l₂) after = firstAddr l₁ (firstAddr l₂ after) := by
  cases l₁ <;> rfl

theorem lastAddr_append (before : Option ι) (l₁ l₂ : List (ι × δ)) :
    lastAddr before (l₁ ++ l₂) = lastAddr (lastAddr before l₁) l₂ := by
  induction l₁ generalizing before with
  | nil => rfl
  | cons p l₁ ih => exact ih (some p.1)

/-- A stretch is two stretches, each with the other at its end. -/
theorem linked_append : Linked h before (l₁ ++ l₂) after ↔
    Linked h before l₁ (firstAddr l₂ after) ∧ Linked h (lastAddr before l₁) l₂ after := by
  induction l₁ generalizing before with
  | nil => exact ⟨fun h => ⟨trivial, h⟩, And.right⟩
  | cons p l₁ ih =>
    show h p.1 = some ⟨p.2, before, firstAddr (l₁ ++ l₂) after⟩ ∧
      Linked h (some p.1) (l₁ ++ l₂) after ↔ _
    rw [firstAddr_append, ih, ← and_assoc]
    rfl

/-- Other addresses do not matter. -/
theorem Linked.congr (hl : Linked h before l after) (heq : ∀ a ∈ l.map Prod.fst, h' a = h a) :
    Linked h' before l after := by
  induction l generalizing before with
  | nil => trivial
  | cons p l ih =>
    obtain ⟨hp, hrest⟩ := hl
    constructor
    · rw [heq p.1 (List.mem_cons_self ..), hp]
    · exact ih hrest fun a ha => heq a (List.mem_cons_of_mem _ ha)

/-- Every address of a stretch is allocated. -/
theorem Linked.allocated (hl : Linked h before l after) {a : ι} (ha : a ∈ l.map Prod.fst) :
    h a ≠ none := by
  induction l generalizing before with
  | nil => cases ha
  | cons p l ih =>
    rcases List.mem_cons.mp ha with rfl | ha
    · rw [hl.1]
      exact Option.some_ne_none _
    · exact ih hl.2 ha

/-! ## Linking the ends to another node -/

variable [DecidableEq ι]

/-- Write to a node, `none` where there is no node to write to. -/
def DHeap.store (h : DHeap ι δ) (a : ι) (f : DNode ι δ → DNode ι δ) : Option (DHeap ι δ) :=
  (h a).map fun n => Function.update h a (some (f n))

/-- `if (p != NULL) p->prev = v;` -/
def DHeap.setPrev (h : DHeap ι δ) (p v : Option ι) : Option (DHeap ι δ) :=
  match p with
  | none => some h
  | some a => h.store a fun n => { n with prev := v }

/-- `if (p != NULL) p->next = v;` -/
def DHeap.setNext (h : DHeap ι δ) (p v : Option ι) : Option (DHeap ι δ) :=
  match p with
  | none => some h
  | some a => h.store a fun n => { n with next := v }

theorem DHeap.store_eq {n : DNode ι δ} {a : ι} (ha : h a = some n) (f : DNode ι δ → DNode ι δ) :
    DHeap.store h a f = some (Function.update h a (some (f n))) := by
  rw [DHeap.store, ha]
  rfl

/-- The first node gets another node before it. -/
theorem Linked.setPrev (hl : Linked h before l none) (hnodup : (l.map Prod.fst).Nodup)
    (v : Option ι) : ∃ h', DHeap.setPrev h (firstAddr l none) v = some h' ∧ Linked h' v l none ∧
      ∀ a ∉ l.map Prod.fst, h' a = h a := by
  cases l with
  | nil => exact ⟨h, rfl, trivial, fun _ _ => rfl⟩
  | cons p l =>
    obtain ⟨hp, hrest⟩ := hl
    obtain ⟨hnew, -⟩ := List.nodup_cons.mp hnodup
    refine ⟨_, DHeap.store_eq hp _, ⟨Function.update_self .., hrest.congr fun a ha => ?_⟩,
      fun a ha => ?_⟩
    · exact Function.update_of_ne (ne_of_mem_of_not_mem ha hnew) ..
    · exact Function.update_of_ne (ne_of_mem_of_not_mem (List.mem_cons_self ..) ha).symm ..

/-- The last node gets another node after it. -/
theorem Linked.setNext (hl : Linked h none l after) (hnodup : (l.map Prod.fst).Nodup)
    (v : Option ι) : ∃ h', DHeap.setNext h (lastAddr none l) v = some h' ∧ Linked h' none l v ∧
      ∀ a ∉ l.map Prod.fst, h' a = h a := by
  rcases List.eq_nil_or_concat' l with rfl | ⟨l, p, rfl⟩
  · exact ⟨h, rfl, trivial, fun _ _ => rfl⟩
  · obtain ⟨hinit, hp, -⟩ := linked_append.mp hl
    have hnew : p.1 ∉ l.map Prod.fst := by
      rw [List.map_append] at hnodup
      exact fun hmem => (List.disjoint_of_nodup_append hnodup) hmem (List.mem_singleton_self p.1)
    -- the last address does not occur before it: the write leaves the other nodes alone
    rw [lastAddr_append]
    refine ⟨_, DHeap.store_eq hp _, linked_append.mpr ⟨hinit.congr fun a ha => ?_,
      Function.update_self .., trivial⟩, fun a ha => ?_⟩
    · exact Function.update_of_ne (ne_of_mem_of_not_mem ha hnew) ..
    · refine Function.update_of_ne (fun heq => ha ?_) ..
      rw [heq, List.map_append]
      exact List.mem_append_right _ (List.mem_singleton_self p.1)

/-! ## Following the pointers -/

omit [DecidableEq ι]

/-- From `p` on, the pointers to the next node lead through `as`, and end there. -/
def Follows (h : DHeap ι δ) : Option ι → List ι → Prop
  | p, [] => p = none
  | p, a :: as => p = some a ∧ ∃ n, h a = some n ∧ Follows h n.next as

/-- A list with these contents at these addresses. -/
structure WellLinked (h : DHeap ι δ) (head : Option ι) (l : List (ι × δ)) : Prop where
  follows : Follows h head (l.map Prod.fst)
  acyclic : (l.map Prod.fst).Nodup
  data : ∀ p ∈ l, ∃ n, h p.1 = some n ∧ n.data = p.2
  head_prev : ∀ a n, head = some a → h a = some n → n.prev = none
  next_prev : ∀ a ∈ l.map Prod.fst, ∀ n b, h a = some n → n.next = some b →
    ∃ n', h b = some n' ∧ n'.prev = some a
  prev_next : ∀ a ∈ l.map Prod.fst, ∀ n b, h a = some n → n.prev = some b →
    ∃ n', h b = some n' ∧ n'.next = some a

theorem Linked.follows (hl : Linked h before l none) :
    Follows h (firstAddr l none) (l.map Prod.fst) := by
  induction l generalizing before with
  | nil => rfl
  | cons p l ih => exact ⟨rfl, _, hl.1, ih hl.2⟩

/-- A node of a stretch, with what stands before and behind it. -/
theorem Linked.at (hl : Linked h before l after) {a : ι} (ha : a ∈ l.map Prod.fst) :
    ∃ l₁ d l₂, l = l₁ ++ (a, d) :: l₂ ∧ Linked h before l₁ (some a) ∧
      h a = some ⟨d, lastAddr before l₁, firstAddr l₂ after⟩ ∧ Linked h (some a) l₂ after := by
  obtain ⟨p, hp, rfl⟩ := List.mem_map.mp ha
  obtain ⟨l₁, l₂, rfl⟩ := List.append_of_mem hp
  obtain ⟨hinit, hnode, hrest⟩ := linked_append.mp hl
  exact ⟨l₁, p.2, l₂, rfl, hinit, hnode, hrest⟩

theorem Linked.wellLinked (hl : Linked h none l none) (hnodup : (l.map Prod.fst).Nodup) :
    WellLinked h (firstAddr l none) l where
  follows := hl.follows
  acyclic := hnodup
  data p hp := by
    obtain ⟨l₁, l₂, rfl⟩ := List.append_of_mem hp
    exact ⟨_, (linked_append.mp hl).2.1, rfl⟩
  head_prev a n ha hn := by
    cases l with
    | nil => cases ha
    | cons p l =>
      cases ha
      rw [hl.1] at hn
      exact (congrArg DNode.prev (Option.some.inj hn)).symm
  next_prev a ha n b hn hb := by
    obtain ⟨l₁, d, l₂, rfl, -, hnode, hrest⟩ := hl.at ha
    rw [hnode] at hn
    obtain rfl := Option.some.inj hn
    -- the next node is the first one of the stretch behind `a`
    cases l₂ with
    | nil => cases hb
    | cons p l₂ =>
      cases hb
      exact ⟨_, hrest.1, rfl⟩
  prev_next a ha n b hn hb := by
    obtain ⟨l₁, d, l₂, rfl, hinit, hnode, -⟩ := hl.at ha
    rw [hnode] at hn
    obtain rfl := Option.some.inj hn
    -- and the one before is the last one of the stretch before `a`
    rcases List.eq_nil_or_concat' l₁ with rfl | ⟨l₀, p, rfl⟩
    · cases hb
    · rw [lastAddr_append] at hb
      cases hb
      exact ⟨_, (linked_append.mp hinit).2.1, rfl⟩

end CLib
