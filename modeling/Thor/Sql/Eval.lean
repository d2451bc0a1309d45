import Thor.Sql.Parser
import Mathlib.Logic.Function.Basic

/-!
# Running statements

What a database engine does with the statements of `Sql.Parser`. An `Engine` is
the part that is left to the implementation:

- the order in which a query visits the rows it selects (`scan`: any order that
  leaving rows out does not disturb, and that only looks at the columns rows are
  stored and indexed by);
- what becomes of a text stored in an `INTEGER` column that is not a plain
  decimal number (`numeric`);
- everything it does with a text outside the fragment (`other`).

A theorem about every `Engine` therefore holds of SQLite whatever plan it picks.

Rows are functions from column names to values: a `Schema` says which columns
there are, and no statement looks at another one. A statement that fails leaves
the database as it was (`Engine.execStmt_error`), one that names a single table
leaves the others alone (`Engine.execStmt_frame`).
-/

namespace Sql

open CLib

/-! ## Values, tables, catalogs -/

/-- A stored value. A floating-point number or a blob is known by the text it is
rendered to. -/
inductive Value where
  | null
  | int (i : Int)
  | text (s : Str)
  | other (repr : Str)
  deriving DecidableEq

/-- The text a row callback receives. -/
def Value.render : Value → Option Str
  | .null => none
  | .int i => some (fmtD i)
  | .text s => some s
  | .other s => some s

inductive Affinity where
  | text | integer | blob
  deriving DecidableEq

structure Column where
  name : Str
  aff : Affinity
  notNull : Bool

/-- A table's declaration. `key` is its `INTEGER PRIMARY KEY AUTOINCREMENT`. -/
structure Schema where
  name : Str
  key : Str
  cols : List Column
  unique : List (List Str)

/-- The columns the rows are stored or indexed by: the key, and the members of a
`UNIQUE` set. -/
def Schema.indexed (sch : Schema) : List Str := sch.key :: sch.unique.flatten

/-- The declared tables. -/
abbrev Catalog := List Schema

abbrev Row := Str → Value

/-- The rows, oldest first, and the largest key ever given out. -/
structure Table where
  rows : List Row
  seq : Int

/-- A database: the contents of each declared table. -/
abbrev Db := Str → Table

/-- Names are found in any letter case. -/
def Catalog.find (cat : Catalog) (t : Str) : Option Schema :=
  List.find? (fun s => lower s.name == lower t) cat

def Schema.find (sch : Schema) (c : Str) : Option Column :=
  sch.cols.find? (fun col => lower col.name == lower c)

/-- What a call of `sqlite3_exec` gives back: the database after it, the rows its
callback saw (column names with texts), and an error message. -/
structure Result where
  db : Db
  rows : List (List (Str × Option Str))
  err : Option Str

/-! ## Affinity and comparison -/

/-- A plain decimal number that fits 64 bits. -/
def plainInt (s : Str) : Option Int :=
  let value : Option Int :=
    match s with
    | '-' :: t => if t ≠ [] ∧ t.all Char.isDigit then some (-(digitsVal t : Int)) else none
    | t => if t ≠ [] ∧ t.all Char.isDigit then some (digitsVal t) else none
  value.filter fun i => decide (-2 ^ 63 ≤ i ∧ i < 2 ^ 63)

/-- The characters a number can be written with. -/
def isNumericChar (c : Char) : Bool :=
  c.isDigit || isSpace c || c ∈ ['+', '-', '.', 'e', 'E']

/-- The choices left to the engine. -/
structure Engine where
  scan : Schema → Stmt → List Row → List Row
  scan_perm : ∀ sch q rows, (scan sch q rows).Perm rows
  scan_sublist : ∀ sch q {rows rows'}, rows.Sublist rows' →
    (scan sch q rows).Sublist (scan sch q rows')
  scan_map : ∀ sch q (f : Row → Row) rows, (∀ r ∈ rows, ∀ c ∈ sch.indexed, f r c = r c) →
    scan sch q (rows.map f) = (scan sch q rows).map f
  numeric : Str → Value
  numeric_ne_null : ∀ s, numeric s ≠ .null
  numeric_text : ∀ s, (∃ c ∈ s, isNumericChar c = false) → numeric s = .text s
  other : Str → Db → Result

/-- An engine that visits rows in the order of their keys, stores what is no plain
number as text, and does nothing outside the fragment. -/
def Engine.inKeyOrder : Engine where
  scan _ _ rows := rows
  scan_perm _ _ _ := .refl _
  scan_sublist _ _ _ _ h := h
  scan_map _ _ _ _ _ := rfl
  numeric := .text
  numeric_ne_null _ := Value.noConfusion
  numeric_text _ _ := rfl
  other _ db := ⟨db, [], none⟩

namespace Engine

variable (e : Engine) (cat : Catalog)

/-- A value on its way into a column, or into a comparison with one. -/
def convert : Affinity → Value → Value
  | .text, .int i => .text (fmtD i)
  | .text, .other s => .text s
  | .integer, .text s => ((plainInt s).map Value.int).getD (e.numeric s)
  | _, v => v

/-- The affinity an operand brings into a comparison; literals have none. -/
def affinity (sch : Schema) : Expr → Option Affinity
  | .col c => (sch.find c).map Column.aff
  | .sub c t _ => (cat.find t).bind fun sch' => (sch'.find c).map Column.aff
  | _ => none

/-- An operand with affinity `own`, compared with one of affinity `against`. -/
def coerce (own against : Option Affinity) (v : Value) : Value :=
  match against, own with
  | some .integer, some .integer => v
  | some .integer, _ => e.convert .integer v
  | some .text, none => e.convert .text v
  | _, _ => v

end Engine

/-- Is a condition met? -/
def Value.truth : Value → Bool
  | .int i => i != 0
  | _ => false

/-- A truth value, `none` for unknown. -/
def Value.ofTruth : Option Bool → Value
  | none => .null
  | some true => .int 1
  | some false => .int 0

/-- The truth value of a condition's result. -/
def Value.toTruth : Value → Option Bool
  | .null => none
  | v => some v.truth

def Value.equal (v w : Value) : Option Bool :=
  if v = .null ∨ w = .null then none else some (decide (v = w))

def truthAnd : Option Bool → Option Bool → Option Bool
  | some false, _ => some false
  | _, some false => some false
  | some true, some true => some true
  | _, _ => none

def truthOr : Option Bool → Option Bool → Option Bool
  | some true, _ => some true
  | _, some true => some true
  | some false, some false => some false
  | _, _ => none

def Lit.value : Lit → Value
  | .str s => .text s
  | .int i => .int i

namespace Engine

variable (e : Engine) (cat : Catalog)

/-- The value of an expression at a row of a table. A sub-select is the first
row the engine visits, `NULL` if there is none. -/
def eval (db : Db) : Schema → Row → Expr → Value
  | sch, row, .col c => ((sch.find c).map fun col => row col.name).getD .null
  | _, _, .lit l => l.value
  | _, _, .sub c t w =>
    match cat.find t with
    | none => .null
    | some sch' =>
      match (e.scan sch' (.select (some [c]) t w)
        ((db sch'.name).rows.filter fun r => (eval db sch' r w).truth)).head?, sch'.find c with
      | some r, some col => r col.name
      | _, _ => .null
  | sch, row, .eq a b =>
    Value.ofTruth (Value.equal
      (e.coerce (affinity cat sch a) (affinity cat sch b) (eval db sch row a))
      (e.coerce (affinity cat sch b) (affinity cat sch a) (eval db sch row b)))
  | sch, row, .and a b =>
    Value.ofTruth (truthAnd (eval db sch row a).toTruth (eval db sch row b).toTruth)
  | sch, row, .or a b =>
    Value.ofTruth (truthOr (eval db sch row a).toTruth (eval db sch row b).toTruth)
  | _, _, .tt => .int 1

/-- The rows of a table that meet a condition. -/
def hits (db : Db) (sch : Schema) (w : Expr) (r : Row) : Bool := (e.eval cat db sch r w).truth

/-! ## Checking names -/

end Engine

/-- Whether the names of a statement are found. A name missing in a sub-select
may still belong to the table around it, which is outside the fragment. -/
inductive Check where
  | ok
  | error (msg : Str)
  | unsupported
  deriving DecidableEq

def Check.andThen : Check → Check → Check
  | .ok, c => c
  | c, _ => c

def noColumn (c : Str) : Str := lit "no such column: " ++ c

def noTable (t : Str) : Str := lit "no such table: " ++ t

def checkCol (inner : Bool) (sch : Schema) (c : Str) : Check :=
  if (sch.find c).isSome then .ok else if inner then .unsupported else .error (noColumn c)

def checkExpr (cat : Catalog) : Bool → Schema → Expr → Check
  | inner, sch, .col c => checkCol inner sch c
  | _, _, .lit _ => .ok
  | _, _, .sub c t w =>
    match cat.find t with
    | none => .error (noTable t)
    | some sch' => (checkCol true sch' c).andThen (checkExpr cat true sch' w)
  | inner, sch, .eq a b | inner, sch, .and a b | inner, sch, .or a b =>
    (checkExpr cat inner sch a).andThen (checkExpr cat inner sch b)
  | _, _, .tt => .ok

def checkCols (sch : Schema) (cs : List Str) : Check :=
  cs.foldr (fun c k => (checkCol false sch c).andThen k) .ok

def checkStmt (cat : Catalog) : Stmt → Check
  | .select cols t w =>
    match cat.find t with
    | none => .error (noTable t)
    | some sch => (checkCols sch (cols.getD [])).andThen (checkExpr cat false sch w)
  | .insert t cols vals =>
    match cat.find t with
    | none => .error (noTable t)
    | some sch =>
      -- an explicit key, or a column named twice, is left to the engine
      if cols.any (fun c => lower c == lower sch.key) ∨ ¬ (cols.map lower).Nodup then
        .unsupported
      else if cols.length ≠ vals.length then .error (lit "values for columns")
      else checkCols sch cols
  | .update t c _ w =>
    match cat.find t with
    | none => .error (noTable t)
    | some sch =>
      if lower c == lower sch.key then .unsupported
      else (checkCol false sch c).andThen (checkExpr cat false sch w)
  | .delete t w =>
    match cat.find t with
    | none => .error (noTable t)
    | some sch => checkExpr cat false sch w

/-! ## Running one statement -/

/-- The row `r` may not stand in one table with `r'`: they agree on a declared
unique set without a `NULL` in it. -/
def Schema.clash (sch : Schema) (r r' : Row) : Bool :=
  sch.unique.any fun u => u.all fun c => decide (r c ≠ .null ∧ r c = r' c)

/-- Some declared column of `r` lacks its value. -/
def Schema.lacks (sch : Schema) (r : Row) : Bool :=
  sch.cols.any fun col => col.notNull && decide (r col.name = .null)

def uniqueFailed : Str := lit "UNIQUE constraint failed"

def notNullFailed : Str := lit "NOT NULL constraint failed"

/-- The key of a new row. -/
def Table.nextKey (t : Table) (key : Str) : Int :=
  t.rows.foldl (fun m r => match r key with | .int i => max m i | _ => m) t.seq + 1

/-- Set one column in the rows that are hit, one after the other; `done` are the
rows already passed. A clash stops the statement. -/
def updateRows (sch : Schema) (hit : Row → Bool) (set : Row → Row) :
    List Row → List Row → Option (List Row)
  | done, [] => some done
  | done, r :: rs =>
    if hit r then
      if (done ++ rs).any (sch.clash (set r)) then none
      else updateRows sch hit set (done ++ [set r]) rs
    else updateRows sch hit set (done ++ [r]) rs

namespace Engine

variable (e : Engine) (cat : Catalog)

/-- The row an `INSERT` builds. -/
def newRow (sch : Schema) (key : Int) (cols : List Str) (vals : List Lit) : Row := fun c =>
  if c = sch.key then .int key
  else
    match sch.find c, ((cols.map lower).zip vals).lookup (lower c) with
    | some col, some l => e.convert col.aff l.value
    | _, _ => .null

/-- The effect of a statement whose names have been found, on a table found. -/
def effect (db : Db) (sch : Schema) : Stmt → Result
  | .select cols t w =>
    let shown := match cols with
      | some cs => cs.filterMap sch.find
      | none => sch.cols
    ⟨db, (e.scan sch (.select cols t w) ((db sch.name).rows.filter (e.hits cat db sch w))).map
      fun r => shown.map fun col => (col.name, (r col.name).render), none⟩
  | .insert _ cols vals =>
    let tbl := db sch.name
    let key := tbl.nextKey sch.key
    let r := e.newRow sch key cols vals
    -- the key is used up only if the row goes in
    if sch.lacks r then ⟨db, [], some notNullFailed⟩
    else if tbl.rows.any (sch.clash r) then ⟨db, [], some uniqueFailed⟩
    else ⟨Function.update db sch.name ⟨tbl.rows ++ [r], key⟩, [], none⟩
  | .update _ c v w =>
    let tbl := db sch.name
    match sch.find c with
    | none => ⟨db, [], some (noColumn c)⟩
    | some col =>
      match updateRows sch (e.hits cat db sch w)
        (fun r => Function.update r col.name (e.convert col.aff v.value)) [] tbl.rows with
      | none => ⟨db, [], some uniqueFailed⟩
      | some rows => ⟨Function.update db sch.name ⟨rows, tbl.seq⟩, [], none⟩
  | .delete _ w =>
    let tbl := db sch.name
    ⟨Function.update db sch.name
      ⟨tbl.rows.filter fun r => !e.hits cat db sch w r, tbl.seq⟩, [], none⟩

end Engine

/-- The table a statement names. -/
def Stmt.table : Stmt → Str
  | .select _ t _ | .insert t _ _ | .update t _ _ _ | .delete t _ => t

namespace Engine

variable (e : Engine) (cat : Catalog)

def execStmt (s : Stmt) (db : Db) : Result :=
  match checkStmt cat s, cat.find s.table with
  | .ok, some sch => e.effect cat db sch s
  | .error msg, _ => ⟨db, [], some msg⟩
  | _, _ => ⟨db, [], none⟩

/-- Statements one after the other, up to the first that fails. -/
def execStmts : List Stmt → Db → Result
  | [], db => ⟨db, [], none⟩
  | s :: ss, db =>
    let r := e.execStmt cat s db
    match r.err with
    | some _ => r
    | none =>
      let r' := execStmts ss r.db
      ⟨r'.db, r.rows ++ r'.rows, r'.err⟩

/-- Run a text. -/
def exec (text : Str) (db : Db) : Result :=
  match parse (tokenize text) with
  | some ss =>
    if ss.any fun s => checkStmt cat s == .unsupported then e.other text db
    else e.execStmts cat ss db
  | none => e.other text db

/-! ## What one statement can do -/

variable {e cat}

/-- A text that is one statement of the fragment. -/
theorem exec_of_parse {text : Str} {s : Stmt} (h : parse (tokenize text) = some [s])
    (hs : checkStmt cat s ≠ .unsupported) (db : Db) :
    e.exec cat text db = e.execStmt cat s db := by
  unfold exec
  rw [h]
  have hany : ([s].any fun s => checkStmt cat s == Check.unsupported) = false := by
    simpa using hs
  show (if ([s].any fun s => checkStmt cat s == Check.unsupported) = true then _ else _) = _
  rw [hany, if_neg Bool.false_ne_true]
  show (match (e.execStmt cat s db).err with | some _ => _ | none => _) = _
  cases herr : (e.execStmt cat s db).err with
  | some m => rfl
  | none =>
    show (⟨(e.execStmt cat s db).db, (e.execStmt cat s db).rows ++ [], none⟩ : Result) = _
    rw [List.append_nil, ← herr]

/-- **Atomicity**: a statement that fails changes nothing and shows no row. -/
theorem execStmt_error {s : Stmt} {db : Db} {msg : Str}
    (h : (e.execStmt cat s db).err = some msg) :
    (e.execStmt cat s db).db = db ∧ (e.execStmt cat s db).rows = [] := by
  unfold execStmt at h ⊢
  cases hc : checkStmt cat s with
  | error m => exact ⟨rfl, rfl⟩
  | unsupported => exact ⟨rfl, rfl⟩
  | ok =>
    cases hf : cat.find s.table with
    | none => exact ⟨rfl, rfl⟩
    | some sch =>
      rw [hc, hf] at h
      cases s with
      | select cols t w => cases h
      | delete t w => cases h
      | insert t cols vals =>
        simp only [effect] at h ⊢
        split_ifs at h ⊢
        · exact ⟨rfl, rfl⟩
        · exact ⟨rfl, rfl⟩
      | update t c v w =>
        simp only [effect] at h ⊢
        split at h
        · exact ⟨rfl, rfl⟩
        · split at h
          · exact ⟨rfl, rfl⟩
          · cases h

/-- **Frame**: a statement changes no other table than the one it names. -/
theorem execStmt_frame {s : Stmt} {db : Db} {t : Str}
    (h : ∀ sch, cat.find s.table = some sch → sch.name ≠ t) :
    (e.execStmt cat s db).db t = db t := by
  unfold execStmt
  cases hc : checkStmt cat s with
  | error m => rfl
  | unsupported => rfl
  | ok =>
    cases hf : cat.find s.table with
    | none => rfl
    | some sch =>
      have hne : t ≠ sch.name := fun heq => h sch hf heq.symm
      cases s with
      | select cols t' w => rfl
      | delete t' w => exact Function.update_of_ne hne _ _
      | insert t' cols vals =>
        simp only [effect]
        split_ifs
        · rfl
        · rfl
        · exact Function.update_of_ne hne _ _
      | update t' c v w =>
        simp only [effect]
        split
        · rfl
        · split
          · rfl
          · exact Function.update_of_ne hne _ _

/-- A query changes nothing. -/
theorem execStmt_select_db {cols : Option (List Str)} {t : Str} {w : Expr} {db : Db} :
    (e.execStmt cat (.select cols t w) db).db = db := by
  unfold execStmt
  cases checkStmt cat (.select cols t w) with
  | error m => rfl
  | unsupported => rfl
  | ok => cases cat.find (Stmt.select cols t w).table <;> rfl

/-! ## What an `UPDATE` can do -/

end Engine

/-- An update that goes through changes the rows that are hit, where they stand. -/
theorem updateRows_eq_map {sch : Schema} {hit : Row → Bool} {set : Row → Row} :
    ∀ {done rs rows : List Row}, updateRows sch hit set done rs = some rows →
      rows = done ++ rs.map fun r => if hit r then set r else r
  | done, [], rows, h => by simpa using (Option.some.inj h).symm
  | done, r :: rs, rows, h => by
    unfold updateRows at h
    split at h
    · next hr =>
      split at h
      · cases h
      · have ih := updateRows_eq_map h
        simpa [hr] using ih
    · next hr =>
      have ih := updateRows_eq_map h
      simpa [hr] using ih

namespace Engine

/-- The rows of a table after an `UPDATE` of one column that goes through. -/
def updated (e : Engine) (cat : Catalog) (db : Db) (sch : Schema) (col : Column) (v : Lit)
    (w : Expr) : List Row :=
  (db sch.name).rows.map fun r =>
    if e.hits cat db sch w r then Function.update r col.name (e.convert col.aff v.value) else r

variable {e : Engine} {cat : Catalog}

theorem execStmt_update {db : Db} {t c : Str} {v : Lit} {w : Expr} :
    (e.execStmt cat (.update t c v w) db).db = db ∨
      ∃ sch col, cat.find t = some sch ∧ sch.find c = some col ∧
        (e.execStmt cat (.update t c v w) db).db
          = Function.update db sch.name ⟨e.updated cat db sch col v w, (db sch.name).seq⟩ := by
  unfold execStmt
  cases checkStmt cat (.update t c v w) with
  | error m => exact .inl rfl
  | unsupported => exact .inl rfl
  | ok =>
    cases hf : cat.find (Stmt.update t c v w).table with
    | none => exact .inl rfl
    | some sch =>
      simp only [effect]
      cases hc : sch.find c with
      | none => exact .inl rfl
      | some col =>
        dsimp only
        split
        · exact .inl rfl
        · next rows hrows =>
          refine .inr ⟨sch, col, hf, hc, ?_⟩
          rw [updateRows_eq_map hrows]
          rfl

/-! ## Conditions -/

theorem truth_equal {v u : Value} :
    (Value.ofTruth (Value.equal v u)).truth = true ↔ v = u ∧ u ≠ .null := by
  unfold Value.equal
  split
  · next h =>
    refine ⟨fun h' => absurd h' (by decide), fun ⟨hvu, hu⟩ => ?_⟩
    rcases h with h | h
    · exact absurd (hvu ▸ h) hu
    · exact absurd h hu
  · next h =>
    obtain ⟨-, hu⟩ := not_or.mp h
    by_cases hvu : v = u
    · simp [hvu, hu, Value.ofTruth, Value.truth]
    · simp [hvu, Value.ofTruth, Value.truth]

theorem truth_and (v u : Value) :
    (Value.ofTruth (truthAnd v.toTruth u.toTruth)).truth = (v.truth && u.truth) := by
  have hnull : Value.null.truth = false := rfl
  by_cases hv : v = .null
  · subst hv
    by_cases hu : u = .null
    · subst hu
      rfl
    · rw [show u.toTruth = some u.truth by cases u <;> first | rfl | exact absurd rfl hu]
      cases u.truth <;> rfl
  · rw [show v.toTruth = some v.truth by cases v <;> first | rfl | exact absurd rfl hv]
    by_cases hu : u = .null
    · subst hu
      cases v.truth <;> rfl
    · rw [show u.toTruth = some u.truth by cases u <;> first | rfl | exact absurd rfl hu]
      cases v.truth <;> cases u.truth <;> rfl

theorem hits_and {db : Db} {sch : Schema} {a b : Expr} {r : Row} :
    e.hits cat db sch (.and a b) r = (e.hits cat db sch a r && e.hits cat db sch b r) := by
  show (e.eval cat db sch r (.and a b)).truth = _
  rw [eval, truth_and]
  rfl

/-- A `TEXT` column compared with a string literal. -/
theorem hits_text {db : Db} {sch : Schema} {c s : Str} {col : Column} {r : Row}
    (hfind : sch.find c = some col) (haff : col.aff = .text) :
    e.hits cat db sch (.eq (.col c) (.lit (.str s))) r = true ↔ r col.name = .text s := by
  have hcol : affinity cat sch (.col c) = some .text := by simp [affinity, hfind, haff]
  have hlit : affinity cat sch (.lit (.str s)) = none := rfl
  show (e.eval cat db sch r (.eq (.col c) (.lit (.str s)))).truth = true ↔ _
  rw [eval, hcol, hlit, truth_equal]
  simp [eval, hfind, coerce, convert, Lit.value]

theorem coerce_self {a : Affinity} {v : Value} : e.coerce (some a) (some a) v = v := by
  cases a <;> rfl

/-- `c = (SELECT c FROM t WHERE w)`, on the rows of `t` itself: the row agrees with one
that meets the condition. -/
theorem hits_eq_sub {db : Db} {sch : Schema} {c t : Str} {w : Expr} {col : Column} {r : Row}
    (ht : cat.find t = some sch) (hfind : sch.find c = some col)
    (h : e.hits cat db sch (.eq (.col c) (.sub c t w)) r = true) :
    ∃ r₀ ∈ (db sch.name).rows, e.hits cat db sch w r₀ = true ∧ r col.name = r₀ col.name := by
  have hcol : affinity cat sch (.col c) = some col.aff := by simp [affinity, hfind]
  have hsub : affinity cat sch (.sub c t w) = some col.aff := by simp [affinity, ht, hfind]
  unfold hits at h
  rw [eval, hcol, hsub, coerce_self, coerce_self, truth_equal] at h
  obtain ⟨heq, hne⟩ := h
  simp only [eval, ht, hfind, Option.map_some, Option.getD_some] at heq hne
  cases hhead : (e.scan sch (.select (some [c]) t w)
      ((db sch.name).rows.filter fun r => (e.eval cat db sch r w).truth)).head? with
  | none =>
    rw [hhead] at hne
    exact absurd rfl hne
  | some r₀ =>
    rw [hhead] at heq
    have hmem := (e.scan_perm ..).mem_iff.mp (List.mem_of_mem_head? hhead)
    obtain ⟨hrow, hw⟩ := List.mem_filter.mp hmem
    exact ⟨r₀, hrow, hw, heq⟩

end Engine

end Sql
