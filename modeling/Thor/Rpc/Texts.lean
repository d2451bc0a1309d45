import Thor.Database.Updates
import Thor.Rpc.Walk
import Thor.Rpc.Authority

/-!
# What requests do to the tables

- `DbLeaf.built`: the text a request on the database builds from its fields.
- `DbLeaf.executes_prog`: running the request executes that text, and nothing else.
- `Request.Plain`: no field that goes into a text as it came has a quote.
- `Request.table_cases`: a plain request leaves a table alone, or is a request on the
  database, and the table becomes what the statement behind its text makes of it.
-/

namespace Thor

open CLib Sql Prog

variable (y : Sys)

/-! ## The texts of requests -/

/-- A key field that names a column. -/
def mappedKey (key : Option Str) : Option MappedKey :=
  (findCmd key).bind fun k =>
    if h : (getMapping (some k)).isSome = true then some ⟨k, h⟩ else none

theorem getMapping_findCmd (key : Option Str) :
    getMapping (findCmd key) = (mappedKey key).map MappedKey.column := by
  unfold mappedKey
  cases findCmd key with
  | none => rfl
  | some k =>
    by_cases h : (getMapping (some k)).isSome = true
    · simp [h, MappedKey.column]
    · rw [Option.bind_some, dif_neg h]
      exact Option.not_isSome_iff_eq_none.mp h

theorem findCmd_of_mappedKey {key : Option Str} {k : MappedKey} (h : mappedKey key = some k) :
    findCmd key = some k.1 := by
  obtain ⟨k', hk', h⟩ := Option.bind_eq_some_iff.mp h
  split at h
  · rw [hk', ← Option.some.inj h]
  · cases h

/-- The text a leaf builds from its fields, `none` for a key without a column and for the
leaves without fields. -/
def DbLeaf.built : DbLeaf → Option Built
  | addItem name quantity price extra =>
    some (.addItems (fmtS name) (fmtS quantity) (fmtS price) (fmtS extra))
  | dltItem name => some (.deleteItem (fmtS name))
  | updateItem name key value =>
    (mappedKey key).map fun k => .updateItemsInfo (fmtS name) k (fmtS value)
  | creatUsr name pass mode => some (.createUsrTable (fmtS name) (fmtS pass) (atoi mode))
  | updateUsr name key value =>
    (mappedKey key).map fun k => .updateUserInfo (fmtS name) k (fmtS value)
  | addImage upc image => some (.addImage (fmtS upc) (fmtS image))
  | deleteImage upc => some (.deleteImage (fmtS upc))
  | updateImage upc key value =>
    (mappedKey key).map fun k => .updateItemImage (fmtS upc) k (fmtS value)
  | getImage upc => some (.getImageForUpc (fmtS upc))
  | dltUsr .. | getAllItems | getAllUsers | getAllImages => none

/-- The text a leaf executes. -/
def DbLeaf.sql : DbLeaf → Option Str
  | getAllItems => some getAllItemsSql
  | getAllUsers => some getAllUsersSql
  | getAllImages => some getAllImageUpcSql
  | l => l.built.map (Built.text y)

/-! ## Programs that execute a text -/

/-- The database is left alone. -/
def DbKept (w : World) (_ : List Event) (w' : World) : Prop := w'.srv.db = w.srv.db

theorem DbKept.composable : Composable DbKept where
  refl _ := rfl
  trans h h' := h'.trans h

/-- The database is left alone, or what the text `sql` has made of it. -/
def Executes (sql : Option Str) (w : World) (_ : List Event) (w' : World) : Prop :=
  w'.srv.db = w.srv.db ∨ ∃ s ∈ sql, w'.srv.db = (y.engine.exec catalog s w.srv.db).db

theorem dbKept_callPtr {α : Type} {op : Op} {args : List (Option Str)} {body : M α}
    (h : Always body DbKept) : Always (callPtr op args body) DbKept :=
  always_callPtr DbKept.composable (fun _ _ => rfl) h

theorem dbKept_reply : ReplyJudgment fun m => Always m DbKept where
  pure _ := RelOn.pure DbKept.composable
  bind hm hf := RelOn.seq DbKept.composable hm hf
  gets _ := RelOn.gets DbKept.composable
  fail _ := RelOn.fail DbKept.composable
  tick _ _ := rfl
  alloc _ _ _ := rfl
  setValue _ _ _ := rfl
  setResponse _ _ _ := rfl
  setLevel _ _ _ := rfl
  emit _ _ _ _ := rfl
  call _ h := dbKept_callPtr h

section Execute

variable {y} {α β : Type} {m : M α} {f : α → M β} {sql : Option Str}

theorem executes_of_kept (h : Always m DbKept) : Always m (Executes y sql) :=
  fun w hw => .inl (h w hw)

/-- What stands before the execution leaves the database alone. -/
theorem executes_after (hm : Always m DbKept)
    (hf : ∀ a w, (m.run w).val = .ok a → Always (f a) (Executes y sql)) :
    Always (m >>= f) (Executes y sql) := by
  intro w hw
  cases h : (m.run w).val with
  | error e =>
    rw [run_bind_of_error h]
    exact .inl (hm w hw)
  | ok a =>
    have hkept : (m.run w).state.srv.db = w.srv.db := hm w hw
    have hrest := hf a w h (m.run w).state trivial
    rw [run_bind_of_ok h]
    unfold Executes at hrest ⊢
    rwa [hkept] at hrest

/-- What stands behind it does, too. -/
theorem executes_before (hm : Always m (Executes y sql)) (hf : ∀ a, Always (f a) DbKept) :
    Always (m >>= f) (Executes y sql) := by
  intro w hw
  cases h : (m.run w).val with
  | error e =>
    rw [run_bind_of_error h]
    exact hm w hw
  | ok a =>
    have hkept : ((f a).run (m.run w).state).state.srv.db = (m.run w).state.srv.db :=
      hf a _ trivial
    have hfirst := hm w hw
    rw [run_bind_of_ok h]
    unfold Executes at hfirst ⊢
    rwa [hkept]

theorem executes_callPtr {op : Op} {args : List (Option Str)} (h : Always m (Executes y sql)) :
    Always (callPtr op args m) (Executes y sql) := by
  refine executes_after (RelOn.emit fun _ _ => rfl) fun _ _ _ =>
    executes_after (dbKept_reply.gets _) fun set _ _ => ?_
  split
  · exact h
  · exact executes_of_kept (dbKept_reply.fail _)

theorem executes_sqlite3Exec {γ : Type} {s : Str} (callback : γ → RowText → Except Crash γ)
    (data : γ) : Always (sqlite3Exec y s callback data) (Executes y (some s)) := by
  refine executes_after (RelOn.emit fun _ _ => rfl) fun _ _ _ =>
    executes_after (fun _ _ => rfl) fun t _ _ => ?_
  cases y.fault t with
  | some fault => exact executes_of_kept (RelOn.pure DbKept.composable)
  | none =>
    intro w hw
    have hrest (r : Result) : Always (lift (r.rows.foldlM callback data) >>= fun data =>
        (pure (data, r.err.map fun msg => Fault.error (some msg)) : M (γ × Option Fault))) DbKept :=
      dbKept_reply.bind (dbKept_reply.session.lift _) fun _ => dbKept_reply.pure _
    exact .inr ⟨s, rfl, hrest (y.engine.exec catalog s w.srv.db) _ trivial⟩

/-- A text that is built in an array, then executed. -/
theorem executes_sprintfInto {cap : Nat} {s : Str} {f : Str → M α}
    (h : Always (f s) (Executes y sql)) :
    Always (sprintfInto cap s >>= f) (Executes y sql) := by
  refine executes_after (dbKept_reply.session.sprintfInto cap s) fun a w ha => ?_
  rw [run_sprintfInto] at ha
  split at ha
  · cases ha
    exact h
  · cases ha

theorem executes_runStatement (cap : Nat) (s : Str) :
    Always (runStatement y cap s) (Executes y (some s)) := by
  have hkept := dbKept_reply.session
  exact executes_sprintfInto (executes_before (executes_sqlite3Exec _ _) fun _ =>
    hkept.bind (hkept.storeMessage _) fun _ => hkept.pure _)

theorem executes_listInto (sz : Sizes) (opening s : Str) :
    Always (listInto y sz opening s) (Executes y (some s)) := by
  have hkept := dbKept_reply.session
  refine executes_after (hkept.alloc _) fun b _ _ => executes_after (hkept.setValue _) fun _ _ _ =>
    executes_before (executes_sqlite3Exec _ _) fun r => ?_
  refine hkept.bind (hkept.storeMessage _) fun _ => ?_
  split
  · exact hkept.bind (hkept.sprintfInto _ _) fun _ => hkept.bind (hkept.sprintfInto _ _) fun _ =>
      hkept.bind (hkept.setValue _) fun _ => hkept.pure _
  · exact hkept.pure _

/-- A text that changes nothing. -/
theorem dbKept_of_executes {s : Str}
    (hs : ∀ db, (y.engine.exec catalog s db).db = db) (h : Always m (Executes y (some s))) :
    Always m DbKept := by
  intro w hw
  rcases h w hw with hdb | ⟨_, heq, hdb⟩
  · exact hdb
  · cases heq
    exact hdb.trans (hs _)

/-- The updates by key. -/
theorem executes_mapped (key : Option Str) (cap : Nat) {text : Str → Str}
    {built : MappedKey → Built}
    (htext : ∀ k, mappedKey key = some k → text k.column = (built k).text y) :
    Always (match getMapping (findCmd key) with
      | none => pure (-1)
      | some colName => runStatement y cap (text colName))
      (Executes y (((mappedKey key).map built).map (Built.text y))) := by
  rw [getMapping_findCmd]
  cases h : mappedKey key with
  | none => exact executes_of_kept (RelOn.pure DbKept.composable)
  | some k =>
    show Always (runStatement y cap (text k.column)) (Executes y (some ((built k).text y)))
    rw [htext k h]
    exact executes_runStatement _ _

end Execute

/-- A hash is that of the text the pointer points to. -/
theorem computeHash_val {key : Option Str} {w : World} {a : Str}
    (h : ((computeHash y key).run w).val = .ok a) : a = y.hash (fmtS key) := by
  unfold computeHash at h
  rw [run_callPtr] at h
  split at h
  · cases key with
    | none => cases h
    | some s =>
      cases h
      rfl
  · cases h

/-- The value `__update_user_info` stores. -/
theorem hashedValue_val {key : Option Str} {k : MappedKey} (hk : mappedKey key = some k)
    {value : Option Str} {w : World} {a : Str}
    (h : ((hashedValue y (findCmd key) value).run w).val = .ok a) :
    a = storedValue y k (fmtS value) := by
  unfold hashedValue at h
  unfold storedValue
  rw [findCmd_of_mappedKey hk] at h
  by_cases hpass : k.1 = .userpass
  · rw [if_pos (congrArg some hpass)] at h
    rw [if_pos hpass]
    exact computeHash_val y h
  · rw [if_neg fun heq => hpass (Option.some.inj heq)] at h
    rw [if_neg hpass]
    cases h
    rfl

theorem executes_createUsrTable (uname upsswd : Option Str) (role : Int) :
    Always (createUsrTable y uname upsswd role) (Executes y
      (some ((Built.createUsrTable (fmtS uname) (fmtS upsswd) role).text y))) := by
  refine executes_after (dbKept_reply.session.computeHash y upsswd) fun a w ha => ?_
  rw [computeHash_val y ha]
  exact executes_runStatement _ _

/-- **What a leaf executes.** -/
theorem DbLeaf.executes_call (l : DbLeaf) : Always (l.call y) (Executes y (l.sql y)) := by
  have hkept := dbKept_reply.session
  cases l with
  | addItem | dltItem | addImage | deleteImage => exact executes_runStatement _ _
  | getAllItems | getAllUsers | getAllImages => exact executes_listInto _ _ _
  | getImage upc => exact executes_sprintfInto (executes_listInto _ _ _)
  | dltUsr => exact executes_of_kept (RelOn.pure DbKept.composable)
  | creatUsr name pass mode => exact executes_createUsrTable y name pass _
  | updateItem name key value | updateImage upc key value =>
    exact executes_mapped key _ fun _ _ => rfl
  | updateUsr name key value =>
    refine executes_after ?_ fun a w ha =>
      executes_mapped key _ fun k hk => by rw [hashedValue_val y hk ha]; rfl
    unfold hashedValue
    split
    · exact hkept.computeHash y value
    · exact hkept.pure _

theorem DbLeaf.executes_prog (l : DbLeaf) : Always (l.prog y) (Executes y (l.sql y)) := by
  have hkept := dbKept_reply
  refine executes_before ?_ fun _ => hkept.bind (hkept.session.cleanup l) fun _ =>
    hkept.session.freeResponse
  refine executes_after (hkept.gets _) fun b _ _ => ?_
  cases b with
  | true => exact executes_before (executes_callPtr (l.executes_call y)) fun r => hkept.answer l r
  | false => exact executes_of_kept (hkept.session.leafRefused hkept.sendResponse l)

/-! ## Tables that are left alone -/

/-- Child processes leave the table alone. -/
def ChildrenKeep (t : Str) : Prop := ∀ tick line db, (y.popen tick line db).2 t = db t

/-- The texts a request builds, when its pointer is set, have no quote in a field that goes
in as it came. -/
def Request.Plain (ops : Op → Bool) : Request → Prop
  | db leaf => ops leaf.op = true → ∀ b ∈ leaf.built, ∀ f ∈ b.asGiven, QuoteFree f
  | logCmd process latlong txId command =>
    ∀ f ∈ [fmtS process, latlong, fmtS txId, fmtS command], QuoteFree f
  | cliNode process latlong txId command =>
    ∀ f ∈ [fmtS process, latlong, fmtS txId, command], QuoteFree f
  | _ => True

/-- The table is left alone. -/
def TableKept (t : Str) (w : World) (_ : List Event) (w' : World) : Prop :=
  w'.srv.db t = w.srv.db t

variable {y} {t : Str}

theorem TableKept.composable : Composable (TableKept t) where
  refl _ := rfl
  trans h h' := h'.trans h

theorem tableKept_of_kept {α : Type} {m : M α} (h : Always m DbKept) : Always m (TableKept t) :=
  fun w hw => congrFun (h w hw) t

theorem tableKept_reply : ReplyJudgment fun m => Always m (TableKept t) where
  pure _ := RelOn.pure TableKept.composable
  bind hm hf := RelOn.seq TableKept.composable hm hf
  gets _ := RelOn.gets TableKept.composable
  fail _ := RelOn.fail TableKept.composable
  tick := tableKept_of_kept dbKept_reply.tick
  alloc text := tableKept_of_kept (dbKept_reply.alloc text)
  setValue b := tableKept_of_kept (dbKept_reply.setValue b)
  setResponse b := tableKept_of_kept (dbKept_reply.setResponse b)
  setLevel level := tableKept_of_kept (dbKept_reply.setLevel level)
  emit h h' := tableKept_of_kept (dbKept_reply.emit h h')
  call _ h := always_callPtr TableKept.composable (fun _ _ => rfl) h

/-- A query changes nothing. -/
theorem exec_query {sql t : Str} {cols : Option (List Str)} {cond : Expr}
    (hparse : parse (tokenize sql) = some [.select cols t cond])
    (hcheck : checkStmt catalog (.select cols t cond) ≠ .unsupported) (db : Db) :
    (y.engine.exec catalog sql db).db = db := by
  rw [Engine.exec_of_parse hparse hcheck, Engine.execStmt_select_db]

/-- The numbers in a text that a leaf builds are read back. -/
theorem DbLeaf.numbers_built {l : DbLeaf} {b : Built} (hb : b ∈ l.built) :
    ∀ i ∈ b.numbers, intLit i = some (.int i) := by
  cases l with
  | creatUsr name pass mode =>
    cases hb
    intro i hi
    obtain rfl := List.mem_singleton.mp hi
    obtain ⟨hlo, hhi⟩ := isInt32_atoi mode
    exact if_pos (by omega)
  | addItem | dltItem | addImage | deleteImage | getImage =>
    cases hb
    exact fun _ => nofun
  | updateItem | updateImage | updateUsr =>
    obtain ⟨k, -, rfl⟩ := Option.map_eq_some_iff.mp hb
    exact fun _ => nofun
  | dltUsr | getAllItems | getAllUsers | getAllImages => cases hb

/-- **What the text of a leaf does** is what the statement behind it does. -/
theorem DbLeaf.exec_sql {l : DbLeaf} (hplain : ∀ b ∈ l.built, ∀ f ∈ b.asGiven, QuoteFree f)
    {s : Str} (hs : s ∈ l.sql y) (db : Db) :
    (y.engine.exec catalog s db).db = db ∨
      ∃ b ∈ l.built, s = b.text y ∧
        y.engine.exec catalog s db = y.engine.execStmt catalog (b.stmt y) db := by
  have hbuilt (h : l.sql y = l.built.map (Built.text y)) :
      ∃ b ∈ l.built, s = b.text y ∧
        y.engine.exec catalog s db = y.engine.execStmt catalog (b.stmt y) db := by
    rw [h] at hs
    obtain ⟨b, hb, rfl⟩ := Option.map_eq_some_iff.mp hs
    exact ⟨b, hb, rfl, b.exec_eq y (hplain b hb) (l.numbers_built hb) db⟩
  cases l with
  | getAllItems =>
    cases hs
    exact .inl (exec_query (show parse (tokenize getAllItemsSql) = some [.select
      (some [lit "UPC", lit "Quantity", lit "Price", lit "Name"]) itemTable .tt] by decide +kernel)
      (by decide +kernel) db)
  | getAllUsers =>
    cases hs
    exact .inl (exec_query (show parse (tokenize getAllUsersSql) =
      some [.select none userTable .tt] by decide +kernel) (by decide +kernel) db)
  | getAllImages =>
    cases hs
    exact .inl (exec_query (show parse (tokenize getAllImageUpcSql) = some [.select
      (some [lit "UPC"]) imagesTable .tt] by decide +kernel) (by decide +kernel) db)
  | _ => exact .inr (hbuilt rfl)

/-- **A plain leaf** leaves a table alone, or its pointer is set and the database becomes
what a statement about the table makes of it. -/
theorem DbLeaf.table_cases {l : DbLeaf} {w : World} (t : Str)
    (hplain : w.sess.ops l.op = true → ∀ b ∈ l.built, ∀ f ∈ b.asGiven, QuoteFree f) :
    ((l.prog y).run w).state.srv.db t = w.srv.db t ∨
      w.sess.ops l.op = true ∧ ∃ b ∈ l.built, (b.stmt y).table = t ∧
        ((l.prog y).run w).state.srv.db = (y.engine.execStmt catalog (b.stmt y) w.srv.db).db := by
  cases hset : w.sess.ops l.op with
  | false => exact .inl (congrArg (fun s => s.db t) (refused_prog y (r := .db l) rfl w hset).srv)
  | true =>
    rcases l.executes_prog y w trivial with h | ⟨s, hs, h⟩
    · exact .inl (congrFun h t)
    · rcases DbLeaf.exec_sql (hplain hset) hs w.srv.db with hexec | ⟨b, hb, rfl, hexec⟩
      · exact .inl (congrFun (h.trans hexec) t)
      · by_cases ht : (b.stmt y).table = t
        · exact .inr ⟨rfl, b, hb, ht, h.trans (congrArg Result.db hexec)⟩
        · left
          rw [h]
          exact b.exec_frame y (hplain hset b hb) (l.numbers_built hb) ht w.srv.db

/-- The keys of all tables stay keys. -/
theorem DbLeaf.keyed_prog {l : DbLeaf} {w : World}
    (hplain : ∀ b ∈ l.built, ∀ f ∈ b.asGiven, QuoteFree f) (h : w.srv.db.Keyed catalog) :
    Db.Keyed catalog ((l.prog y).run w).state.srv.db := by
  rcases l.executes_prog y w trivial with hdb | ⟨s, hs, hdb⟩
  · rw [hdb]
    exact h
  · rw [hdb]
    rcases DbLeaf.exec_sql hplain hs w.srv.db with hexec | ⟨b, -, -, hexec⟩
    · rw [hexec]
      exact h
    · rw [hexec]
      exact Engine.execStmt_keyed catalog_names h

/-- A log entry is an entry of its own table. -/
theorem tableKept_log (ht : logsTable ≠ t) {type : LogType}
    {process command latlong txId : Option Str}
    (hq : ∀ f ∈ [fmtS process, fmtS latlong, fmtS txId, fmtS command], QuoteFree f) :
    Always (logRpcCommand y type process command latlong txId) (TableKept t) := by
  intro w _
  rw [run_logRpcCommand]
  rcases executes_runStatement (y := y) 8000 (logSql y w type process command latlong txId)
    { w with tick := w.tick + 1 } trivial with h | ⟨s, hs, h⟩
  · exact congrFun h t
  · cases hs
    refine (congrFun h t).trans (Built.exec_frame y (b := .logRpcCommand w.sess.ip w.sess.port
      w.sess.uid (y.time w.tick) type (fmtS process) (fmtS command) (fmtS latlong) (fmtS txId))
      hq ?_ ht w.srv.db)
    intro i hi
    obtain rfl := List.mem_singleton.mp hi
    have htime := y.time_lt w.tick
    exact if_pos (by omega)

/-- A child process that keeps the table. -/
theorem tableKept_runProcess (hchild : ChildrenKeep y t) (line : Str) :
    Always (runProcess y line) (TableKept t) := by
  have hreply := tableKept_reply (t := t)
  refine hreply.bind hreply.tick fun tick => ?_
  split
  · refine hreply.bind (hreply.emit rfl fun _ _ => nofun) fun _ =>
      hreply.bind hreply.tick fun tick => ?_
    refine RelOn.bind (Q := fun db w => w.srv.db = db) TableKept.composable (hreply.gets _)
      (Triple.gets fun _ _ => rfl) fun db => ?_
    refine RelOn.seq TableKept.composable (RelOn.modify fun w hw => ?_) fun _ => ?_
    · have hkept : (y.popen tick line db).2 t = w.srv.db t := hw ▸ hchild tick line db
      exact hkept
    · cases (y.popen tick line db).1 with
      | none => exact hreply.fail _
      | some chunks => exact hreply.bind (hreply.session.lift _) fun _ => hreply.sendResponse _ _
  · exact hreply.sendResponse _ _

theorem dbKept_bye : Always (Request.bye.prog y) DbKept := by
  have hkept := dbKept_reply
  refine hkept.bind (dbKept_callPtr ?_) fun _ => RelOn.emit fun _ _ => rfl
  exact hkept.bind (RelOn.modify fun _ _ => rfl) fun _ => RelOn.emit fun _ _ => rfl

theorem dbKept_down : Always (down y) DbKept := by
  have hkept := dbKept_reply
  refine hkept.bind (RelOn.modify fun _ _ => rfl) fun _ =>
    hkept.bind (RelOn.emit fun _ _ => rfl) fun _ => ?_
  split
  · exact hkept.pure _
  · exact hkept.fail _

/-- A plain request that is not about the database. -/
theorem tableKept_prog (hchild : ChildrenKeep y t) (ht : logsTable ≠ t) {r : Request}
    (hdb : ∀ leaf, r ≠ .db leaf) {ops : Op → Bool} (hplain : r.Plain ops) :
    Always (r.prog y) (TableKept t) := by
  refine tableKept_reply.prog y (fun _ => tableKept_of_kept dbKept_bye)
    (fun _ => tableKept_of_kept dbKept_down)
    (fun p l tx c _ => tableKept_of_kept (RelOn.emit fun _ _ => rfl))
    (fun c _ => tableKept_of_kept (RelOn.emit fun _ _ => rfl))
    (fun leaf h => absurd h (hdb leaf)) ?_ ?_ (tableKept_runProcess hchild)
  · rintro p l tx c rfl
    exact tableKept_log ht hplain
  · rintro p l tx c rfl
    exact tableKept_log ht hplain

/-- **A plain request** leaves a table alone, unless it is a request on the database whose
statement is about the table. -/
theorem Request.table_cases (hchild : ChildrenKeep y t) (ht : logsTable ≠ t) {r : Request}
    {w : World} (hplain : r.Plain w.sess.ops) :
    ((r.prog y).run w).state.srv.db t = w.srv.db t ∨
      ∃ leaf, r = .db leaf ∧ w.sess.ops leaf.op = true ∧ ∃ b ∈ leaf.built,
        (b.stmt y).table = t ∧
          ((r.prog y).run w).state.srv.db = (y.engine.execStmt catalog (b.stmt y) w.srv.db).db := by
  by_cases hr : ∃ leaf, r = .db leaf
  · obtain ⟨leaf, rfl⟩ := hr
    rcases leaf.table_cases t hplain with h | ⟨hset, b, hb, hbt, h⟩
    · exact .inl h
    · exact .inr ⟨leaf, rfl, hset, b, hb, hbt, h⟩
  · exact .inl (tableKept_prog hchild ht (fun leaf h => hr ⟨leaf, h⟩) hplain w trivial)

end Thor
