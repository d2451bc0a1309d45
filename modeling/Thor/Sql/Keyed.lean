import Thor.Sql.Eval
import Mathlib.Data.List.Nodup

/-!
# Tables with keys

The key of a table is a number of its own for each row, and no statement of the fragment
sets it. A table is then updated row by row: the condition
`key=(SELECT key FROM t WHERE w)` picks one row, the first the sub-select visits.

- `Table.Keyed`: the rows have such keys. `Engine.execStmt_keyed`: every statement keeps
  that.
- `Engine.reached`: the row a sub-select on the table itself finds.
- `Engine.execStmt_updateReached`: the update changes that row, if it does not clash with
  another one then, and no other.
-/

namespace Sql

open CLib

/-! ## Keys -/

/-- Every row has an integer as key, and no two rows have the same. -/
structure Table.Keyed (key : Str) (t : Table) : Prop where
  ints : ∀ r ∈ t.rows, ∃ i, r key = .int i
  nodup : (t.rows.map fun r => r key).Nodup

/-- All tables of a catalog are keyed. -/
def Db.Keyed (cat : Catalog) (db : Db) : Prop := ∀ sch ∈ cat, (db sch.name).Keyed sch.key

/-- The database after the tables have been created. -/
def Db.empty : Db := fun _ => ⟨[], 0⟩

theorem Db.keyed_empty (cat : Catalog) : Db.Keyed cat .empty :=
  fun _ _ => ⟨fun _ hr => (nomatch hr), List.nodup_nil⟩

namespace Table.Keyed

variable {key : Str} {t : Table}

theorem of_ids (ids : List Int) (h : t.rows.map (fun r => r key) = ids.map Value.int)
    (hnodup : ids.Nodup) : t.Keyed key := by
  constructor
  · intro r hr
    have hmem : r key ∈ ids.map Value.int := h ▸ List.mem_map_of_mem hr
    obtain ⟨i, -, hi⟩ := List.mem_map.mp hmem
    exact ⟨i, hi.symm⟩
  · rw [h]
    exact hnodup.map fun _ _ => Value.int.inj

/-- A row is known by its key. -/
theorem eq_of_key (h : t.Keyed key) {r r' : Row} (hr : r ∈ t.rows) (hr' : r' ∈ t.rows)
    (heq : r key = r' key) : r = r' :=
  List.inj_on_of_nodup_map h.nodup hr hr' heq

theorem key_ne_null (h : t.Keyed key) {r : Row} (hr : r ∈ t.rows) : r key ≠ .null := by
  obtain ⟨i, hi⟩ := h.ints r hr
  rw [hi]
  exact Value.noConfusion

/-- The other rows have other keys. -/
theorem ne_of_append {r₀ : Row} {l₁ l₂ : List Row} (h : t.Keyed key)
    (hrows : t.rows = l₁ ++ r₀ :: l₂) : ∀ r ∈ l₁ ++ l₂, r key ≠ r₀ key := by
  have hnodup := h.nodup
  rw [hrows, List.map_append, List.map_cons, List.nodup_middle, List.nodup_cons] at hnodup
  intro r hr heq
  refine hnodup.1 ?_
  rw [← List.map_append, ← heq]
  exact List.mem_map_of_mem hr

/-- A change of the rows that leaves the keys alone. -/
theorem map (h : t.Keyed key) {f : Row → Row} (hf : ∀ r, f r key = r key) (seq : Int) :
    Table.Keyed key ⟨t.rows.map f, seq⟩ := by
  constructor
  · intro r hr
    obtain ⟨r', hr', rfl⟩ := List.mem_map.mp hr
    rw [hf]
    exact h.ints r' hr'
  · show ((t.rows.map f).map fun r => r key).Nodup
    rw [List.map_map]
    exact (congrArg List.Nodup (List.map_congr_left fun r _ => hf r)).mpr h.nodup

theorem filter (h : t.Keyed key) (p : Row → Bool) (seq : Int) :
    Table.Keyed key ⟨t.rows.filter p, seq⟩ :=
  ⟨fun r hr => h.ints r (List.mem_of_mem_filter hr),
    h.nodup.sublist (List.filter_sublist.map _)⟩

end Table.Keyed

/-- The search for the largest key, one row on. -/
def maxKey (key : Str) (m : Int) (r : Row) : Int :=
  match r key with
  | .int i => max m i
  | _ => m

theorem le_maxKey (key : Str) (m : Int) (r : Row) : m ≤ maxKey key m r := by
  unfold maxKey
  split
  · exact Int.le_max_left ..
  · exact Int.le_refl m

/-- No key is larger than what the search ends with. -/
theorem le_foldl_maxKey (key : Str) (rows : List Row) (m : Int) :
    m ≤ rows.foldl (maxKey key) m ∧
      ∀ r ∈ rows, ∀ i, r key = .int i → i ≤ rows.foldl (maxKey key) m := by
  induction rows generalizing m with
  | nil => exact ⟨Int.le_refl m, fun _ hr => absurd hr List.not_mem_nil⟩
  | cons r₀ rows ih =>
    rw [List.foldl_cons]
    obtain ⟨hm, hrows⟩ := ih (maxKey key m r₀)
    constructor
    · exact Int.le_trans (le_maxKey key m r₀) hm
    · intro r hr i hi
      rcases List.mem_cons.mp hr with rfl | hr
      · refine Int.le_trans ?_ hm
        unfold maxKey
        rw [hi]
        exact Int.le_max_right ..
      · exact hrows r hr i hi

/-- A key that is handed out is larger than all keys in use. -/
theorem Table.lt_nextKey {t : Table} {key : Str} {r : Row} {i : Int} (hr : r ∈ t.rows)
    (hi : r key = .int i) : i < t.nextKey key :=
  Int.lt_add_one_of_le ((le_foldl_maxKey key t.rows t.seq).2 r hr i hi)

/-- A row with a fresh key. -/
theorem Table.Keyed.append {key : Str} {t : Table} (h : t.Keyed key) {r : Row}
    (hr : r key = .int (t.nextKey key)) : Table.Keyed key ⟨t.rows ++ [r], t.nextKey key⟩ := by
  constructor
  · intro r' hr'
    rcases List.mem_append.mp hr' with hr' | hr'
    · exact h.ints r' hr'
    · rw [List.mem_singleton.mp hr']
      exact ⟨_, hr⟩
  · show ((t.rows ++ [r]).map fun r => r key).Nodup
    rw [List.map_append, List.nodup_append]
    refine ⟨h.nodup, List.nodup_singleton _, fun a ha b hb heq => ?_⟩
    obtain ⟨r', hr', rfl⟩ := List.mem_map.mp ha
    have hb : b = .int (t.nextKey key) := (List.mem_singleton.mp hb).trans hr
    exact Int.lt_irrefl _ (Table.lt_nextKey hr' (heq.trans hb))

/-! ## What statements do to keys -/

namespace Engine

variable {e : Engine} {cat : Catalog}

/-- A column that an update may set is not the key. -/
theorem name_ne_key {sch : Schema} {t c : Str} {v : Lit} {w : Expr} {col : Column}
    (ht : cat.find t = some sch) (hcheck : checkStmt cat (.update t c v w) = .ok)
    (hc : sch.find c = some col) : col.name ≠ sch.key := by
  intro heq
  have hname : lower col.name = lower c :=
    eq_of_beq (List.find?_some (p := fun col : Column => lower col.name == lower c) hc)
  have hlower : (lower c == lower sch.key) = true := by
    rw [← heq, hname]
    exact beq_self_eq_true _
  simp only [checkStmt, ht] at hcheck
  rw [if_pos hlower] at hcheck
  cases hcheck

theorem keyed_update {db : Db} {sch : Schema} {tbl : Table} (h : db.Keyed cat)
    (hcat : ∀ s ∈ cat, s.name = sch.name → s = sch) (ht : tbl.Keyed sch.key) :
    (Db.Keyed cat (Function.update db sch.name tbl)) := by
  intro s hs
  by_cases hname : s.name = sch.name
  · rw [hcat s hs hname, Function.update_self]
    exact ht
  · rw [Function.update_of_ne hname]
    exact h s hs

/-- **Keys stay keys**, whatever a statement of the fragment does. -/
theorem execStmt_keyed {s : Stmt} {db : Db}
    (hcat : ∀ s ∈ cat, ∀ s' ∈ cat, s.name = s'.name → s = s') (h : db.Keyed cat) :
    Db.Keyed cat (e.execStmt cat s db).db := by
  unfold execStmt
  cases hc : checkStmt cat s with
  | error m => exact h
  | unsupported => exact h
  | ok =>
    cases hf : cat.find s.table with
    | none => exact h
    | some sch =>
      have hmem : sch ∈ cat := List.mem_of_find?_eq_some hf
      have hsch := h sch hmem
      have hunique (s : Schema) (hs : s ∈ cat) := hcat s hs sch hmem
      cases s with
      | select cols t w => exact h
      | delete t w => exact keyed_update h hunique (hsch.filter _ _)
      | insert t cols vals =>
        simp only [effect]
        split_ifs
        · exact h
        · exact h
        · exact keyed_update h hunique (hsch.append (if_pos rfl))
      | update t c v w =>
        simp only [effect]
        split
        · exact h
        · next col hcol =>
          split
          · exact h
          · next rows hrows =>
            rw [updateRows_eq_map hrows]
            refine keyed_update h hunique (hsch.map (fun r => ?_) _)
            split
            · exact Function.update_of_ne (name_ne_key hf hc hcol).symm _ _
            · rfl

/-- A statement that fails leaves the database alone. -/
theorem execStmt_of_err {s : Stmt} {db : Db} (h : (e.execStmt cat s db).err ≠ none) :
    (e.execStmt cat s db).db = db := by
  revert h
  unfold execStmt
  cases checkStmt cat s with
  | error m => exact fun _ => rfl
  | unsupported => exact fun _ => rfl
  | ok =>
    cases cat.find s.table with
    | none => exact fun _ => rfl
    | some sch =>
      cases s with
      | select cols t w => exact fun _ => rfl
      | delete t w => exact fun h => absurd rfl h
      | insert t cols vals =>
        simp only [effect]
        split_ifs
        · exact fun _ => rfl
        · exact fun _ => rfl
        · exact fun h => absurd rfl h
      | update t c v w =>
        simp only [effect]
        split
        · exact fun _ => rfl
        · split
          · exact fun _ => rfl
          · exact fun h => absurd rfl h

/-- An insert whose names are found. -/
theorem execStmt_insert {db : Db} {sch : Schema} {t : Str} {cols : List Str} {vals : List Lit}
    (ht : cat.find t = some sch) (hcheck : checkStmt cat (.insert t cols vals) = .ok)
    (hlacks : sch.lacks (e.newRow sch ((db sch.name).nextKey sch.key) cols vals) = false) :
    e.execStmt cat (.insert t cols vals) db =
      if (db sch.name).rows.any (sch.clash (e.newRow sch ((db sch.name).nextKey sch.key) cols vals))
      then ⟨db, [], some uniqueFailed⟩
      else ⟨Function.update db sch.name
        ⟨(db sch.name).rows ++ [e.newRow sch ((db sch.name).nextKey sch.key) cols vals],
          (db sch.name).nextKey sch.key⟩, [], none⟩ := by
  unfold execStmt
  rw [hcheck, show (Stmt.insert t cols vals).table = t from rfl, ht]
  show (if sch.lacks _ = true then _ else _) = _
  rw [hlacks, if_neg Bool.false_ne_true]

/-- A deletion whose names are found. -/
theorem execStmt_delete {db : Db} {sch : Schema} {t : Str} {w : Expr} (ht : cat.find t = some sch)
    (hcheck : checkStmt cat (.delete t w) = .ok) :
    e.execStmt cat (.delete t w) db = ⟨Function.update db sch.name
      ⟨(db sch.name).rows.filter fun r => !e.hits cat db sch w r, (db sch.name).seq⟩, [], none⟩ := by
  unfold execStmt
  rw [hcheck, show (Stmt.delete t w).table = t from rfl, ht]
  rfl

/-! ## The row a sub-select finds -/

/-- The first row of a table that the sub-select `(SELECT key FROM t WHERE w)` visits. -/
def reached (e : Engine) (cat : Catalog) (db : Db) (sch : Schema) (t : Str) (w : Expr) :
    Option Row :=
  (e.scan sch (.select (some [sch.key]) t w)
    ((db sch.name).rows.filter (e.hits cat db sch w))).head?

theorem reached_mem {db : Db} {sch : Schema} {t : Str} {w : Expr} {r₀ : Row}
    (h : e.reached cat db sch t w = some r₀) :
    r₀ ∈ (db sch.name).rows ∧ e.hits cat db sch w r₀ = true :=
  List.mem_filter.mp ((e.scan_perm ..).mem_iff.mp (List.mem_of_mem_head? h))

/-- It finds none when no row meets the condition. -/
theorem reached_eq_none_iff {db : Db} {sch : Schema} {t : Str} {w : Expr} :
    e.reached cat db sch t w = none ↔
      ∀ r ∈ (db sch.name).rows, e.hits cat db sch w r = false := by
  rw [reached, List.head?_eq_none_iff]
  constructor
  · intro h r hr
    have hnil := (e.scan_perm sch (.select (some [sch.key]) t w)
      ((db sch.name).rows.filter (e.hits cat db sch w))).symm
    rw [h] at hnil
    have hmem := List.filter_eq_nil_iff.mp (List.perm_nil.mp hnil) r hr
    exact Bool.not_eq_true _ ▸ hmem
  · intro h
    have hnil : (db sch.name).rows.filter (e.hits cat db sch w) = [] :=
      List.filter_eq_nil_iff.mpr fun r hr => by simp [h r hr]
    rw [hnil]
    exact List.perm_nil.mp (e.scan_perm ..)

/-- `key=(SELECT key FROM t WHERE w)` -/
def byReached (sch : Schema) (t : Str) (w : Expr) : Expr :=
  .eq (.col sch.key) (.sub sch.key t w)

/-- The condition picks the row reached. -/
theorem hits_byReached {db : Db} {sch : Schema} {t : Str} {w : Expr} {kcol : Column}
    (ht : cat.find t = some sch) (hkey : sch.find sch.key = some kcol)
    (hname : kcol.name = sch.key) (hkeyed : (db sch.name).Keyed sch.key) (r : Row) :
    e.hits cat db sch (byReached sch t w) r = true ↔
      ∃ r₀, e.reached cat db sch t w = some r₀ ∧ r sch.key = r₀ sch.key := by
  have hcol : affinity cat sch (.col sch.key) = some kcol.aff := by simp [affinity, hkey]
  have hsub : affinity cat sch (.sub sch.key t w) = some kcol.aff := by simp [affinity, ht, hkey]
  have hval : e.eval cat db sch r (.sub sch.key t w)
      = ((e.reached cat db sch t w).map fun r₀ => r₀ sch.key).getD .null := by
    have hreached : (e.scan sch (.select (some [sch.key]) t w)
        ((db sch.name).rows.filter fun r => (e.eval cat db sch r w).truth)).head?
          = e.reached cat db sch t w := rfl
    simp only [eval, ht, hkey]
    rw [hreached]
    cases e.reached cat db sch t w with
    | none => rfl
    | some r₀ => exact congrArg r₀ hname
  have hleft : e.eval cat db sch r (.col sch.key) = r sch.key := by
    simp [eval, hkey, hname]
  unfold hits byReached
  rw [eval, hcol, hsub, coerce_self, coerce_self, truth_equal, hval, hleft]
  cases hr : e.reached cat db sch t w with
  | none => simp
  | some r₀ =>
    have hne : r₀ sch.key ≠ .null := hkeyed.key_ne_null (reached_mem hr).1
    simp [hne]

end Engine

/-! ## Updating one row -/

/-- An update that hits nothing. -/
theorem updateRows_none {sch : Schema} {hit : Row → Bool} {set : Row → Row} {rs : List Row}
    (h : ∀ r ∈ rs, hit r = false) (done : List Row) :
    updateRows sch hit set done rs = some (done ++ rs) := by
  induction rs generalizing done with
  | nil => rw [updateRows, List.append_nil]
  | cons r rs ih =>
    rw [updateRows, if_neg (by simp [h r (List.mem_cons_self ..)]),
      ih (fun r hr => h r (List.mem_cons_of_mem _ hr)), List.append_assoc]
    rfl

/-- An update that hits one row: the others have to put up with it. -/
theorem updateRows_one {sch : Schema} {hit : Row → Bool} {set : Row → Row} {r₀ : Row}
    {l₁ l₂ : List Row} (h : ∀ r ∈ l₁ ++ l₂, hit r = false) (h₀ : hit r₀ = true)
    (done : List Row) :
    updateRows sch hit set done (l₁ ++ r₀ :: l₂) =
      if (done ++ (l₁ ++ l₂)).any (sch.clash (set r₀)) then none
      else some (done ++ (l₁ ++ set r₀ :: l₂)) := by
  induction l₁ generalizing done with
  | nil =>
    rw [List.nil_append, updateRows, if_pos h₀, List.nil_append, List.nil_append]
    split
    · rfl
    · rw [updateRows_none (by simpa using h), List.append_assoc]
      rfl
  | cons r l₁ ih =>
    rw [List.cons_append, updateRows, if_neg (by simp [h r (List.mem_cons_self ..)]),
      ih (fun r hr => h r (List.mem_cons_of_mem _ hr))]
    simp only [List.append_assoc, List.cons_append, List.nil_append]

/-- A row with one column set. -/
def Engine.setCol (e : Engine) (col : Column) (v : Lit) (r : Row) : Row :=
  Function.update r col.name (e.convert col.aff v.value)

/-- Some other row of the table clashes with the row `r`, which is to take the place of the
one with its key. -/
def Table.obstructs (sch : Schema) (tbl : Table) (r : Row) : Bool :=
  tbl.rows.any fun r' => decide (r' sch.key ≠ r sch.key) && sch.clash r r'

/-- The table with the row of this key changed. -/
def Table.setRow (key : Str) (tbl : Table) (r₀ : Row) (f : Row → Row) : Table :=
  ⟨tbl.rows.map fun r => if r key = r₀ key then f r else r, tbl.seq⟩

/-- The rows are the one changed and the others. -/
theorem Table.Keyed.mem_setRow {key : Str} {tbl : Table} (h : tbl.Keyed key) {r₀ r : Row}
    (hr₀ : r₀ ∈ tbl.rows) {f : Row → Row} :
    r ∈ (tbl.setRow key r₀ f).rows ↔ r = f r₀ ∨ r ∈ tbl.rows ∧ r key ≠ r₀ key := by
  rw [Table.setRow, List.mem_map]
  constructor
  · rintro ⟨r', hr', rfl⟩
    by_cases heq : r' key = r₀ key
    · rw [if_pos heq, h.eq_of_key hr' hr₀ heq]
      exact .inl rfl
    · rw [if_neg heq]
      exact .inr ⟨hr', heq⟩
  · rintro (rfl | ⟨hr, hne⟩)
    · exact ⟨r₀, hr₀, if_pos rfl⟩
    · exact ⟨r, hr, if_neg hne⟩

theorem Table.Keyed.setRow {key : Str} {tbl : Table} (h : tbl.Keyed key) {r₀ : Row}
    {f : Row → Row} (hf : ∀ r, f r key = r key) : (tbl.setRow key r₀ f).Keyed key :=
  h.map (fun r => by split <;> simp [hf]) tbl.seq

/-- The row in place of another one can clash with the others only. -/
theorem Table.obstructs_of_append {sch : Schema} {tbl : Table} {r₀ r : Row} {l₁ l₂ : List Row}
    (hrows : tbl.rows = l₁ ++ r₀ :: l₂) (hother : ∀ x ∈ l₁ ++ l₂, x sch.key ≠ r₀ sch.key)
    (hr : r sch.key = r₀ sch.key) :
    tbl.obstructs sch r = (l₁ ++ l₂).any (sch.clash r) := by
  have hself (l : List Row) (h : ∀ x ∈ l, x sch.key ≠ r₀ sch.key) :
      (l.any fun x => decide (x sch.key ≠ r₀ sch.key) && sch.clash r x) = l.any (sch.clash r) := by
    induction l with
    | nil => rfl
    | cons x l ih =>
      rw [List.any_cons, List.any_cons, ih fun x hx => h x (List.mem_cons_of_mem _ hx),
        decide_eq_true (h x (List.mem_cons_self ..)), Bool.true_and]
  unfold Table.obstructs
  rw [hrows, hr, List.any_append, List.any_cons, List.any_append,
    hself l₁ fun x hx => hother x (List.mem_append_left _ hx),
    hself l₂ fun x hx => hother x (List.mem_append_right _ hx)]
  simp

theorem Table.setRow_of_append {tbl : Table} {key : Str} {r₀ : Row} {l₁ l₂ : List Row}
    (hrows : tbl.rows = l₁ ++ r₀ :: l₂) (hother : ∀ x ∈ l₁ ++ l₂, x key ≠ r₀ key)
    (set : Row → Row) : tbl.setRow key r₀ set = ⟨l₁ ++ set r₀ :: l₂, tbl.seq⟩ := by
  have hsame (l : List Row) (h : ∀ x ∈ l, x key ≠ r₀ key) :
      l.map (fun x => if x key = r₀ key then set x else x) = l :=
    (List.map_congr_left fun x hx => if_neg (h x hx)).trans (List.map_id _)
  unfold Table.setRow
  rw [hrows, List.map_append, List.map_cons, if_pos rfl,
    hsame l₁ fun x hx => hother x (List.mem_append_left _ hx),
    hsame l₂ fun x hx => hother x (List.mem_append_right _ hx)]

/-- The rows in `p` after a change that takes the row changed out of `p`. -/
theorem Table.filter_setRow {key : Str} {tbl : Table} {r₀ : Row} {f : Row → Row} {p : Row → Bool}
    (hp : ∀ r ∈ tbl.rows, r key = r₀ key → p (f r) = false) :
    (tbl.setRow key r₀ f).rows.filter p
      = (tbl.rows.filter fun r => decide (r key ≠ r₀ key)).filter p := by
  obtain ⟨rows, seq⟩ := tbl
  show (rows.map _).filter p = _
  induction rows with
  | nil => rfl
  | cons r rows ih =>
    have ih := ih fun r' hr' => hp r' (List.mem_cons_of_mem _ hr')
    by_cases h : r key = r₀ key
    · simp [h, hp r (List.mem_cons_self ..) h, ih]
    · simp [h, List.filter_cons, ih]

namespace Engine

variable {e : Engine} {cat : Catalog} {db : Db} {sch : Schema} {t c : Str} {v : Lit} {w : Expr}
  {kcol col : Column}

/-- An update whose sub-select finds no row changes nothing. -/
theorem execStmt_updateReached_none (ht : cat.find t = some sch)
    (hkey : sch.find sch.key = some kcol) (hname : kcol.name = sch.key)
    (hkeyed : (db sch.name).Keyed sch.key)
    (hcheck : checkStmt cat (.update t c v (byReached sch t w)) = .ok)
    (hc : sch.find c = some col) (hr : e.reached cat db sch t w = none) :
    e.execStmt cat (.update t c v (byReached sch t w)) db = ⟨db, [], none⟩ := by
  have hhits : ∀ r ∈ (db sch.name).rows, e.hits cat db sch (byReached sch t w) r = false := by
    intro r _
    rw [← Bool.not_eq_true, hits_byReached ht hkey hname hkeyed, hr]
    exact fun ⟨_, h, _⟩ => nomatch h
  unfold execStmt
  rw [hcheck, show (Stmt.update t c v (byReached sch t w)).table = t from rfl, ht]
  simp only [effect, hc, updateRows_none hhits, List.nil_append]
  exact congrArg (fun db => (⟨db, [], none⟩ : Result)) (Function.update_eq_self sch.name db)

/-- **An update by a sub-select on the key changes the row reached**, unless it clashes with
another one then, and no other. -/
theorem execStmt_updateReached (ht : cat.find t = some sch)
    (hkey : sch.find sch.key = some kcol) (hname : kcol.name = sch.key)
    (hkeyed : (db sch.name).Keyed sch.key)
    (hcheck : checkStmt cat (.update t c v (byReached sch t w)) = .ok)
    (hc : sch.find c = some col) {r₀ : Row} (hr : e.reached cat db sch t w = some r₀) :
    e.execStmt cat (.update t c v (byReached sch t w)) db =
      if (db sch.name).obstructs sch (e.setCol col v r₀) then ⟨db, [], some uniqueFailed⟩
      else ⟨Function.update db sch.name ((db sch.name).setRow sch.key r₀ (e.setCol col v)), [],
        none⟩ := by
  -- the key tells the row reached apart from the ones before and behind it
  obtain ⟨l₁, l₂, hrows⟩ := List.append_of_mem (reached_mem hr).1
  have hother := hkeyed.ne_of_append hrows
  have hset : e.setCol col v r₀ sch.key = r₀ sch.key :=
    Function.update_of_ne (name_ne_key ht hcheck hc).symm _ _
  have hhit (r : Row) : e.hits cat db sch (byReached sch t w) r = true ↔ r sch.key = r₀ sch.key := by
    rw [hits_byReached ht hkey hname hkeyed, hr]
    simp
  have hmiss : ∀ r ∈ l₁ ++ l₂, e.hits cat db sch (byReached sch t w) r = false := by
    intro r hr
    rw [← Bool.not_eq_true, hhit]
    exact hother r hr
  have hsetcol : (fun r : Row => Function.update r col.name (e.convert col.aff v.value))
      = e.setCol col v := rfl
  have hupdate := @updateRows_one sch (e.hits cat db sch (byReached sch t w)) (e.setCol col v) r₀
    l₁ l₂ hmiss ((hhit r₀).mpr rfl) []
  rw [List.nil_append, List.nil_append] at hupdate
  unfold execStmt
  rw [hcheck, show (Stmt.update t c v (byReached sch t w)).table = t from rfl, ht]
  simp only [effect, hc]
  rw [hsetcol, Table.obstructs_of_append hrows hother hset, Table.setRow_of_append hrows hother,
    hrows, hupdate]
  cases (l₁ ++ l₂).any (sch.clash (e.setCol col v r₀)) <;> rfl

end Engine

end Sql
