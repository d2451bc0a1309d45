import Thor.Database.Statements
import Thor.Sql.Keyed

/-!
# Updates and inserts on keyed tables

What the functions of `database/` do to tables with keys. An update by key reaches one row,
whatever the number of rows its condition is about (`updatedRow`); `run_runStatement` is a
function that writes, as a function of what its statement does.
-/

namespace Thor

open CLib Sql Prog

/-! ## The tables -/

theorem catalog_names : ∀ s ∈ catalog, ∀ s' ∈ catalog, s.name = s'.name → s = s' := by
  have hdistinct : (catalog.map Schema.name).Nodup := by decide +kernel
  exact fun s hs s' hs' h => List.inj_on_of_nodup_map hdistinct hs hs' h

/-- The key of every table. -/
def idCol : Str := lit "ID"

def upcCol : Str := lit "UPC"

def UpdateTable.schema : UpdateTable → Schema
  | .users => userInformation
  | .items => itemsInformation
  | .images => itemImages

theorem UpdateTable.find_name (u : UpdateTable) : catalog.find u.name = some u.schema := by
  cases u <;> rfl

theorem UpdateTable.find_key (u : UpdateTable) :
    u.schema.find u.schema.key = some ⟨idCol, .integer, true⟩ := by
  cases u <;> rfl

@[simp] theorem UpdateTable.schema_key (u : UpdateTable) : u.schema.key = idCol := by
  cases u <;> rfl

@[simp] theorem UpdateTable.schema_name (u : UpdateTable) : u.schema.name = u.name := by
  cases u <;> rfl

/-- The condition on the rows an update is about. -/
def UpdateTable.named (u : UpdateTable) (qual : Str) : Expr :=
  .eq (.col u.keyCol) (.lit (.str qual))

theorem updateStmt_eq (u : UpdateTable) (col value qual : Str) :
    updateStmt u col value qual
      = .update u.name col (.str value) (Engine.byReached u.schema u.name (u.named qual)) := by
  cases u <;> rfl

variable (y : Sys)

theorem UpdateTable.hits_named {u : UpdateTable} {qual : Str} {db : Db} {r : Row} :
    y.engine.hits catalog db u.schema (u.named qual) r = true ↔ r u.keyCol = .text qual := by
  cases u with
  | users => exact Engine.hits_text (show _ = some (textColumn "UserName") from rfl) rfl
  | items | images => exact Engine.hits_text (show _ = some (textColumn "UPC") from rfl) rfl

/-! ## The row an update reaches -/

/-- The row that `SELECT ID FROM t where key='qual'` finds first. -/
def updatedRow (u : UpdateTable) (db : Db) (qual : Str) : Option Row :=
  y.engine.reached catalog db u.schema u.name (u.named qual)

variable {y} {u : UpdateTable} {db : Db} {qual : Str}

theorem updatedRow_mem {r₀ : Row} (h : updatedRow y u db qual = some r₀) :
    r₀ ∈ (db u.name).rows ∧ r₀ u.keyCol = .text qual := by
  obtain ⟨hmem, hhit⟩ := Engine.reached_mem h
  rw [u.schema_name] at hmem
  exact ⟨hmem, (UpdateTable.hits_named y).mp hhit⟩

theorem updatedRow_eq_none_iff :
    updatedRow y u db qual = none ↔ ∀ r ∈ (db u.name).rows, r u.keyCol ≠ .text qual := by
  rw [updatedRow, Engine.reached_eq_none_iff, u.schema_name]
  refine forall₂_congr fun r _ => ?_
  rw [← Bool.not_eq_true, UpdateTable.hits_named y]

/-- A row of the name, if there is one, so that some row is reached. -/
theorem exists_updatedRow {r : Row} (hr : r ∈ (db u.name).rows) (h : r u.keyCol = .text qual) :
    ∃ r₀, updatedRow y u db qual = some r₀ :=
  Option.ne_none_iff_exists'.mp fun hnone => updatedRow_eq_none_iff.mp hnone r hr h

/-- The names of an update by key are found, if its table has the column. -/
theorem checkStmt_updateStmt {c value : Str} (hc : c ∈ mappedColumns) :
    checkStmt catalog (updateStmt u c value qual) =
      if (u.schema.find c).isSome then .ok else .error (noColumn c) := by
  have hall : ∀ c ∈ mappedColumns, checkStmt catalog (updateStmt u c [] []) =
      if (u.schema.find c).isSome then .ok else .error (noColumn c) := by
    cases u <;> decide +kernel
  exact hall c hc

section Update

variable {c value : Str} (hc : c ∈ mappedColumns)

include hc

/-- A column the table does not have. -/
theorem execStmt_update_unknown (hfind : u.schema.find c = none) :
    y.engine.execStmt catalog (updateStmt u c value qual) db = ⟨db, [], some (noColumn c)⟩ := by
  unfold Engine.execStmt
  rw [checkStmt_updateStmt hc, hfind]
  rfl

variable {col : Column} (hfind : u.schema.find c = some col) (hkeyed : (db u.name).Keyed idCol)

include hfind hkeyed

/-- Nothing is changed where no row has the name. -/
theorem execStmt_update_none (h : updatedRow y u db qual = none) :
    y.engine.execStmt catalog (updateStmt u c value qual) db = ⟨db, [], none⟩ := by
  have hcheck := @checkStmt_updateStmt u qual c value hc
  rw [hfind, updateStmt_eq] at hcheck
  rw [updateStmt_eq]
  exact Engine.execStmt_updateReached_none u.find_name u.find_key u.schema_key.symm
    (by rwa [u.schema_name, u.schema_key]) hcheck hfind h

/-- **One row is changed**, the row reached, if it clashes with no other then. -/
theorem execStmt_update_some {r₀ : Row} (h : updatedRow y u db qual = some r₀) :
    y.engine.execStmt catalog (updateStmt u c value qual) db =
      if (db u.name).obstructs u.schema (y.engine.setCol col (.str value) r₀) then
        ⟨db, [], some uniqueFailed⟩
      else ⟨Function.update db u.name
        ((db u.name).setRow idCol r₀ (y.engine.setCol col (.str value))), [], none⟩ := by
  have hcheck := @checkStmt_updateStmt u qual c value hc
  rw [hfind, updateStmt_eq] at hcheck
  have heffect := Engine.execStmt_updateReached u.find_name u.find_key u.schema_key.symm
    (by rwa [u.schema_name, u.schema_key]) hcheck hfind h
  rwa [← updateStmt_eq, u.schema_name, u.schema_key] at heffect

end Update

/-- **An update by key that goes through** has set a column of one row, or no row has the
name. -/
theorem execStmt_update_cases {c value : Str} (hc : c ∈ mappedColumns)
    (hkeyed : (db u.name).Keyed idCol)
    (herr : (y.engine.execStmt catalog (updateStmt u c value qual) db).err = none) :
    ∃ col, u.schema.find c = some col ∧
      (updatedRow y u db qual = none ∧
        (y.engine.execStmt catalog (updateStmt u c value qual) db).db = db ∨
      ∃ r₀, updatedRow y u db qual = some r₀ ∧
        (y.engine.execStmt catalog (updateStmt u c value qual) db).db = Function.update db u.name
          ((db u.name).setRow idCol r₀ (y.engine.setCol col (.str value)))) := by
  cases hfind : u.schema.find c with
  | none =>
    rw [execStmt_update_unknown hc hfind] at herr
    cases herr
  | some col =>
    refine ⟨col, rfl, ?_⟩
    cases hrow : updatedRow y u db qual with
    | none =>
      rw [execStmt_update_none hc hfind hkeyed hrow]
      exact .inl ⟨rfl, rfl⟩
    | some r₀ =>
      rw [execStmt_update_some hc hfind hkeyed hrow] at herr ⊢
      refine .inr ⟨r₀, rfl, ?_⟩
      split at herr
      · cases herr
      · next hclash => rw [if_neg hclash]

/-! ## Functions that write -/

/-- The statement of a text is run, and returns without an error. -/
def Runs (y : Sys) (cap : Nat) (text : Str) (w : World) : Prop :=
  text.length < cap ∧ y.fault w.tick = none ∧ (y.engine.exec catalog text w.srv.db).err = none

/-- **A function that writes** returns `0` when its statement is run without an error. -/
theorem run_runStatement {cap : Nat} {text : Str} {w : World} (hlen : text.length < cap) :
    (((runStatement y cap text).run w).val = .ok 0 ∧ Runs y cap text w ∨
      ((runStatement y cap text).run w).val = .ok (-1) ∧ ¬ Runs y cap text w) ∧
    ((runStatement y cap text).run w).state.srv =
      if y.fault w.tick = none then { w.srv with db := (y.engine.exec catalog text w.srv.db).db }
      else w.srv := by
  unfold runStatement Runs
  rw [run_bind_of_run (run_sprintfInto_of_fits hlen w)]
  cases hfault : y.fault w.tick with
  | some fault =>
    have hexec := run_sqlite3Exec y text (fun (u : Unit) _ => u) () w
    rw [hfault] at hexec
    rw [run_bind_of_run hexec]
    obtain ⟨hval, -, hsrv, -⟩ := run_storeMessage (some fault) { w with tick := w.tick + 1 }
    rw [run_bind_of_ok hval]
    exact ⟨.inr ⟨rfl, fun h => nomatch h.2.1⟩, hsrv⟩
  | none =>
    have hexec := run_sqlite3Exec y text (fun (u : Unit) _ => u) () w
    rw [hfault] at hexec
    rw [run_bind_of_run hexec]
    dsimp only
    obtain ⟨hval, -, hsrv, -⟩ := run_storeMessage
      ((y.engine.exec catalog text w.srv.db).err.map fun msg => .error (some msg))
      { w with tick := w.tick + 1, srv :=
        { w.srv with db := (y.engine.exec catalog text w.srv.db).db } }
    rw [run_bind_of_ok hval]
    refine ⟨?_, hsrv⟩
    cases (y.engine.exec catalog text w.srv.db).err with
    | none => exact .inl ⟨rfl, hlen, rfl, rfl⟩
    | some msg => exact .inr ⟨rfl, fun h => nomatch h.2.2⟩

/-- Without room for the text nothing is run. -/
theorem run_runStatement_overflow {cap : Nat} {text : Str} {w : World}
    (hlen : ¬ text.length < cap) :
    (runStatement y cap text).run w = ⟨.error .overflow, w, []⟩ := by
  unfold runStatement
  have hval : ((sprintfInto cap text).run w).val = .error .overflow := by
    rw [run_sprintfInto, if_neg hlen]
  rw [run_bind_of_error hval, run_sprintfInto]

/-- A function that writes, by what its statement does. -/
theorem run_runStatement_of_exec {cap : Nat} {text : Str} {w : World} {r : Result}
    (hlen : text.length < cap) (hfault : y.fault w.tick = none)
    (hexec : y.engine.exec catalog text w.srv.db = r) :
    ((runStatement y cap text).run w).val = .ok (if r.err = none then 0 else -1) ∧
      ((runStatement y cap text).run w).state.srv.db = r.db := by
  obtain ⟨hval, hsrv⟩ := run_runStatement (y := y) (w := w) hlen
  rw [if_pos hfault, hexec] at hsrv
  refine ⟨?_, congrArg Server.db hsrv⟩
  unfold Runs at hval
  rw [hexec] at hval
  by_cases herr : r.err = none
  · rw [if_pos herr]
    exact hval.elim And.left fun h => absurd ⟨hlen, hfault, herr⟩ h.2
  · rw [if_neg herr]
    exact hval.elim (fun h => absurd h.2.2.2 herr) And.left

end Thor
