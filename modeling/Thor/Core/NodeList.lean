import Thor.CLib.Linked
import Thor.CLib.Steps

/-!
# Lists of nodes (headers/list.h)

The macros of `list.h` work on a heap and a pointer to the first node. Here they are
functions of the two, `none` where they would go through a pointer that leads nowhere.

- `insertNode`, `deleteNode`, `getNextNode`: the macros.
- `NodeList.Represents`: the heap holds a list, and is otherwise as it was. Each macro is
  an operation on that list (`Represents.insertNode`, `Represents.deleteNode`,
  `Represents.getNextNode`).
- `wellLinked_run`: after any insertions and deletions the pointers make up the list that
  the same operations make of an empty one.
-/

namespace Thor

open CLib

variable {δ : Type}

/-- A heap, and the pointer to the first node of a list on it. -/
structure NodeList (δ : Type) where
  heap : DHeap Nat δ
  head : Option Nat

namespace NodeList

/-! ## The macros -/

/-- `insert_node`; `node` is what `kmalloc` returns. -/
def insertNode (m : NodeList δ) (node : Nat) (data : δ) : Option (NodeList δ) := do
  let heap := Function.update m.heap node (some ⟨data, none, m.head⟩)
  let heap ← DHeap.setPrev heap m.head (some node)
  some ⟨heap, some node⟩

/-- `delete_node` -/
def deleteNode (m : NodeList δ) : Option Nat → Option (NodeList δ)
  | none => some m
  | some node =>
    if m.head = none then some m
    else do
      let n ← m.heap node
      let head := if m.head = some node then n.next else m.head
      let heap ← DHeap.setPrev m.heap n.next n.prev
      -- the node is read again: its neighbour might have been itself
      let n ← heap node
      let heap ← DHeap.setNext heap n.prev n.next
      some ⟨Function.update heap node none, head⟩

/-- `get_next_node`: the last node is its own successor. -/
def getNextNode (m : NodeList δ) : Option Nat → Option (Option Nat)
  | none => some none
  | some node => do
    let n ← m.heap node
    some (if n.next = none then some node else n.next)

/-! ## The list on the heap -/

/-- The heap holds the nodes of `l`, in this order, at addresses that are free in `h₀`, and
is `h₀` everywhere else. -/
structure Represents (h₀ : DHeap Nat δ) (m : NodeList δ) (l : List (Nat × δ)) : Prop where
  linked : Linked m.heap none l none
  head : m.head = firstAddr l none
  nodup : (l.map Prod.fst).Nodup
  unused : ∀ a ∈ l.map Prod.fst, h₀ a = none
  others : ∀ a ∉ l.map Prod.fst, m.heap a = h₀ a

variable {h₀ : DHeap Nat δ} {m : NodeList δ} {l : List (Nat × δ)} {a : Nat}

theorem Represents.empty (h₀ : DHeap Nat δ) : Represents h₀ ⟨h₀, none⟩ [] where
  linked := trivial
  head := rfl
  nodup := List.nodup_nil
  unused _ h := nomatch h
  others _ _ := rfl

theorem Represents.insertNode (hm : m.Represents h₀ l) (ha : h₀ a = none)
    (hnew : a ∉ l.map Prod.fst) (data : δ) :
    ∃ m', m.insertNode a data = some m' ∧ m'.Represents h₀ ((a, data) :: l) := by
  have hkept : Linked (Function.update m.heap a (some ⟨data, none, m.head⟩)) none l none :=
    hm.linked.congr fun b hb => Function.update_of_ne (ne_of_mem_of_not_mem hb hnew) ..
  obtain ⟨heap, hset, hlinked, hothers⟩ := hkept.setPrev hm.nodup (some a)
  refine ⟨⟨heap, some a⟩, ?_, ⟨?_, hlinked⟩, rfl, List.nodup_cons.mpr ⟨hnew, hm.nodup⟩,
    List.forall_mem_cons.mpr ⟨ha, hm.unused⟩, ?_⟩
  · rw [← hm.head] at hset
    unfold NodeList.insertNode
    simp only [hset, Option.bind_eq_bind, Option.bind_some]
  · show heap a = some ⟨data, none, firstAddr l none⟩
    rw [hothers a hnew, Function.update_self, hm.head]
  · intro b hb
    rw [List.map_cons, List.mem_cons, not_or] at hb
    show heap b = h₀ b
    rw [hothers b hb.2, Function.update_of_ne hb.1, hm.others b hb.2]

/-- The nodes that stay when one is taken out. -/
theorem filter_addr {l₁ l₂ : List (Nat × δ)} {d : δ}
    (hnodup : ((l₁ ++ (a, d) :: l₂).map Prod.fst).Nodup) :
    (l₁ ++ (a, d) :: l₂).filter (fun p => decide (p.1 ≠ a)) = l₁ ++ l₂ := by
  rw [List.map_append, List.map_cons, List.nodup_middle, List.nodup_cons] at hnodup
  have hstay {l : List (Nat × δ)} (h : a ∉ l.map Prod.fst) :
      l.filter (fun p => decide (p.1 ≠ a)) = l :=
    List.filter_eq_self.mpr fun p hp =>
      decide_eq_true fun heq => h (heq ▸ List.mem_map_of_mem hp)
  rw [List.mem_append, not_or] at hnodup
  rw [List.filter_append, List.filter_cons_of_neg (by simp), hstay hnodup.1.1, hstay hnodup.1.2]

theorem Represents.deleteNode (hm : m.Represents h₀ l) (ha : a ∈ l.map Prod.fst) :
    ∃ m', m.deleteNode (some a) = some m' ∧
      m'.Represents h₀ (l.filter fun p => decide (p.1 ≠ a)) := by
  obtain ⟨l₁, d, l₂, rfl, hinit, hnode, hrest⟩ := hm.linked.at ha
  have hnodup := hm.nodup
  rw [List.map_append, List.map_cons] at hnodup
  obtain ⟨hnodup₁, hnodup₂, hdisjoint⟩ := List.nodup_append'.mp hnodup
  obtain ⟨hnew₂, hnodup₂⟩ := List.nodup_cons.mp hnodup₂
  have hnew₁ : a ∉ l₁.map Prod.fst := fun h => hdisjoint h (List.mem_cons_self ..)
  have hdisjoint : ∀ b ∈ l₁.map Prod.fst, b ∉ l₂.map Prod.fst :=
    fun b hb hb' => hdisjoint hb (List.mem_cons_of_mem _ hb')
  -- the nodes behind `a` are linked to those before it, then the other way round
  obtain ⟨heap, hprev, hrest, hothers⟩ := hrest.setPrev hnodup₂ (lastAddr none l₁)
  obtain ⟨heap', hnext, hinit, hothers'⟩ :=
    (hinit.congr fun b hb => hothers b (hdisjoint b hb)).setNext hnodup₁ (firstAddr l₂ none)
  have hrest : Linked heap' (lastAddr none l₁) l₂ none :=
    hrest.congr fun b hb => hothers' b fun hb' => hdisjoint b hb' hb
  have hfree {l : List (Nat × δ)} {before after : Option Nat} (h : Linked heap' before l after)
      (hnew : a ∉ l.map Prod.fst) : Linked (Function.update heap' a none) before l after :=
    h.congr fun b hb => Function.update_of_ne (ne_of_mem_of_not_mem hb hnew) ..
  have hhead : (if m.head = some a then firstAddr l₂ none else m.head)
      = firstAddr (l₁ ++ l₂) none := by
    rw [hm.head]
    cases l₁ with
    | nil => exact if_pos rfl
    | cons p l₁ =>
      refine if_neg fun heq => hnew₁ ?_
      obtain rfl : p.1 = a := Option.some.inj heq
      exact List.mem_cons_self ..
  rw [filter_addr hm.nodup]
  refine ⟨⟨Function.update heap' a none, firstAddr (l₁ ++ l₂) none⟩, ?_, ?_, rfl, ?_, ?_, ?_⟩
  · have hne : m.head ≠ none := by
      rw [hm.head]
      cases l₁ <;> exact Option.some_ne_none _
    have hagain : heap a = some ⟨d, lastAddr none l₁, firstAddr l₂ none⟩ :=
      (hothers a hnew₂).trans hnode
    unfold NodeList.deleteNode
    simp only [if_neg hne, hnode, Option.bind_eq_bind, Option.bind_some, hprev, hagain, hnext, hhead]
  · exact linked_append.mpr ⟨hfree hinit hnew₁, hfree hrest hnew₂⟩
  · rw [List.map_append]
    exact List.nodup_append'.mpr ⟨hnodup₁, hnodup₂, fun b hb hb' => hdisjoint b hb hb'⟩
  · intro b hb
    refine hm.unused b ?_
    rw [List.map_append] at hb ⊢
    exact (List.mem_append.mp hb).elim (List.mem_append_left _)
      fun h => List.mem_append_right _ (List.mem_cons_of_mem _ h)
  · intro b hb
    rw [List.map_append, List.mem_append, not_or] at hb
    show Function.update heap' a none b = h₀ b
    by_cases hba : b = a
    · subst hba
      rw [Function.update_self, hm.unused b ha]
    · rw [Function.update_of_ne hba, hothers' b hb.1, hothers b hb.2]
      refine hm.others b ?_
      rw [List.map_append, List.map_cons, List.mem_append, List.mem_cons, not_or, not_or]
      exact ⟨hb.1, hba, hb.2⟩

/-- The successor of a node in the list. -/
theorem Represents.getNextNode {l₁ l₂ : List (Nat × δ)} {d : δ}
    (hm : m.Represents h₀ (l₁ ++ (a, d) :: l₂)) :
    m.getNextNode (some a) = some (some ((l₂.map Prod.fst).headD a)) := by
  have hnode : m.heap a = some ⟨d, lastAddr none l₁, firstAddr l₂ none⟩ :=
    (linked_append.mp hm.linked).2.1
  unfold NodeList.getNextNode
  simp only [hnode, Option.bind_eq_bind, Option.bind_some]
  cases l₂ <;> rfl

end NodeList

/-! ## Insertions and deletions -/

/-- An insertion, with the address the new node gets, or the deletion of a node. -/
inductive ListOp (δ : Type) where
  | insert (node : Nat) (data : δ)
  | delete (node : Nat)

namespace ListOp

/-- What it does to the heap. -/
def apply (m : NodeList δ) : ListOp δ → Option (NodeList δ)
  | insert node data => m.insertNode node data
  | delete node => m.deleteNode (some node)

/-- What it does to the list. -/
def listed (l : List (Nat × δ)) : ListOp δ → List (Nat × δ)
  | insert node data => (node, data) :: l
  | delete node => l.filter fun p => decide (p.1 ≠ node)

/-- Memory that is in use is not given out again, and a node that is deleted is in the list. -/
def Allowed (h₀ : DHeap Nat δ) (l : List (Nat × δ)) : ListOp δ → Prop
  | insert node _ => h₀ node = none ∧ node ∉ l.map Prod.fst
  | delete node => node ∈ l.map Prod.fst

end ListOp

variable {h₀ : DHeap Nat δ}

/-- One operation. -/
theorem NodeList.Represents.apply {m : NodeList δ} {l : List (Nat × δ)} (hm : m.Represents h₀ l)
    {op : ListOp δ} (hop : op.Allowed h₀ l) :
    ∃ m', op.apply m = some m' ∧ m'.Represents h₀ (op.listed l) := by
  cases op with
  | insert node data => exact hm.insertNode hop.1 hop.2 data
  | delete node => exact hm.deleteNode hop

/-- Any number of them. -/
theorem NodeList.Represents.run {m : NodeList δ} {l : List (Nat × δ)} (hm : m.Represents h₀ l)
    {ops : List (ListOp δ)}
    (hops : AllSteps (fun l op => some (ListOp.listed l op)) (ListOp.Allowed h₀) l ops) :
    ∃ m', runSteps ListOp.apply m ops = some m' ∧
      m'.Represents h₀ (ops.foldl ListOp.listed l) := by
  induction ops generalizing m l with
  | nil => exact ⟨m, rfl, hm⟩
  | cons op ops ih =>
    obtain ⟨hop, hops⟩ := hops _ rfl
    obtain ⟨m', happly, hm'⟩ := hm.apply hop
    obtain ⟨m'', hrun, hm''⟩ := ih hm' hops
    refine ⟨m'', ?_, hm''⟩
    rw [runSteps, happly]
    exact hrun

/-- **The list of sessions** is well linked after any insertions and deletions, and the
rest of the heap is as it was. -/
theorem wellLinked_run {ops : List (ListOp δ)}
    (hops : AllSteps (fun l op => some (ListOp.listed l op)) (ListOp.Allowed h₀) [] ops) :
    ∃ m, runSteps ListOp.apply ⟨h₀, none⟩ ops = some m ∧
      WellLinked m.heap m.head (ops.foldl ListOp.listed []) ∧
      ∀ a ∉ (ops.foldl ListOp.listed []).map Prod.fst, m.heap a = h₀ a := by
  obtain ⟨m, hrun, hm⟩ := (NodeList.Represents.empty h₀).run hops
  refine ⟨m, hrun, ?_, hm.others⟩
  rw [hm.head]
  exact hm.linked.wellLinked hm.nodup

/-- Three sessions, of which the second leaves. -/
theorem wellLinked_three :
    ∃ m, runSteps ListOp.apply (⟨fun _ => none, none⟩ : NodeList Nat)
        [.insert 16 1, .insert 48 2, .insert 80 3, .delete 48] = some m ∧
      WellLinked m.heap m.head [(80, 3), (16, 1)] ∧
      ∀ a ∉ [80, 16], m.heap a = none :=
  wellLinked_run (by
    refine fun _ h => ⟨⟨rfl, by decide⟩, ?_⟩
    cases h
    refine fun _ h => ⟨⟨rfl, by decide⟩, ?_⟩
    cases h
    refine fun _ h => ⟨⟨rfl, by decide⟩, ?_⟩
    cases h
    exact fun _ _ => ⟨by simp [ListOp.Allowed, ListOp.listed], trivial⟩)

end Thor
