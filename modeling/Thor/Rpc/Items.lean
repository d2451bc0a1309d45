import Thor.CLib.Steps
import Thor.Database.Listings
import Thor.Rpc.Escalation
import Thor.Rpc.Passwords
import Thor.Rpc.Replies

/-!
# Updating an item

The items table tells its rows apart by name, a deletion takes all rows of a UPC, and
`__update_items_info` changes one row of the UPC it is given.

- `ItemCommand`: a command that adds, updates or deletes items. `ItemTable`: what all tables
  reached by them have in common (`itemTable_run`).
- `ItemsUpdated`: the update is seen in every item listed with the UPC, and in no other.
- `itemsUpdated_iff`: it is exactly when the items of the UPC that the update does not reach
  have the value already.
-/

namespace Thor

open CLib Sql Prog

/-! ## Tables of items -/

/-- The columns of an item that `get-list` shows. -/
def itemCols : List Str := [upcCol, lit "Quantity", lit "Price", lit "Name"]

/-- The keys that name one of them, the UPC apart. -/
def itemKeys : List (Str × Str) :=
  [(lit "item-quantity", lit "Quantity"), (lit "item-price", lit "Price"), (lit "item-name", lit "Name")]

/-- The rows have keys of their own, and texts in all columns. -/
structure ItemTable (t : Table) : Prop where
  keyed : t.Keyed idCol
  texts : ∀ r ∈ t.rows, ∀ c ∈ itemCols, ∃ s, r c = .text s

theorem itemTable_empty {t : Table} (h : t.rows = []) : ItemTable t := by
  constructor
  · exact .of_ids [] (by rw [h]; rfl) List.nodup_nil
  · rw [h]
    exact fun _ hr => nomatch hr

/-- A column under a key takes texts, and is no key of the table. -/
theorem itemColumn_text {c : Str} {col : Column} (hc : c ∈ mappedColumns)
    (hfind : itemsInformation.find c = some col) : col.aff = .text ∧ col.name ≠ idCol := by
  have hall : ∀ c ∈ mappedColumns, (itemsInformation.find c).all
      (fun col => decide (col.aff = .text ∧ col.name ≠ idCol)) = true := by decide +kernel
  have h := hall c hc
  rw [hfind] at h
  exact of_decide_eq_true h

variable (y : Sys)

/-- The row that `__add_items` makes. -/
def newItem (key : Int) (upc quantity price name : Str) : Row :=
  y.engine.newRow itemsInformation key [lit "UPC", lit "Quantity", lit "Price", lit "Name"]
    [.str upc, .str quantity, .str price, .str name]

theorem newItem_texts (key : Int) (upc quantity price name : Str) :
    ∀ c ∈ itemCols, ∃ s, newItem y key upc quantity price name c = .text s := by
  simp only [itemCols, List.forall_mem_cons]
  exact ⟨⟨upc, rfl⟩, ⟨quantity, rfl⟩, ⟨price, rfl⟩, ⟨name, rfl⟩, fun _ h => nomatch h⟩

variable {y} {db : Db}

/-- A text goes into a text column as it is. -/
theorem setCol_text {col : Column} (haff : col.aff = .text) (v : Str) (r : Row) :
    y.engine.setCol col (.str v) r = Function.update r col.name (.text v) := by
  unfold Engine.setCol
  rw [haff]
  rfl

namespace ItemTable

variable (h : ItemTable (db itemTable))

include h

theorem addItems (upc quantity price name : Str) : ItemTable
    ((y.engine.execStmt catalog (Built.stmt y (.addItems upc quantity price name)) db).db
      itemTable) := by
  have hinsert := @Engine.execStmt_insert y.engine catalog db itemsInformation itemTable
    [lit "UPC", lit "Quantity", lit "Price", lit "Name"]
    [.str upc, .str quantity, .str price, .str name] rfl rfl rfl
  rw [show Built.stmt y (.addItems upc quantity price name) = .insert itemTable
    [lit "UPC", lit "Quantity", lit "Price", lit "Name"]
    [.str upc, .str quantity, .str price, .str name] from rfl, hinsert]
  split
  · exact h
  · show ItemTable (Function.update db itemTable _ itemTable)
    rw [Function.update_self]
    constructor
    · exact h.keyed.append rfl
    · intro r hr
      rcases List.mem_append.mp hr with hr | hr
      · exact h.texts r hr
      · rw [List.mem_singleton.mp hr]
        exact newItem_texts y _ upc quantity price name

theorem deleteItem (upc : Str) : ItemTable
    ((y.engine.execStmt catalog (Built.stmt y (.deleteItem upc)) db).db itemTable) := by
  have hdelete := @Engine.execStmt_delete y.engine catalog db itemsInformation itemTable
    (UpdateTable.items.named upc) rfl rfl
  rw [show Built.stmt y (.deleteItem upc) = .delete itemTable (UpdateTable.items.named upc) from rfl,
    hdelete]
  show ItemTable (Function.update db itemTable _ itemTable)
  rw [Function.update_self]
  exact ⟨h.keyed.filter _ _, fun r hr => h.texts r (List.mem_of_mem_filter hr)⟩

theorem setRow {r₀ : Row} {col : Column} (haff : col.aff = .text) (hid : col.name ≠ idCol)
    (v : Str) : ItemTable ((db itemTable).setRow idCol r₀ (y.engine.setCol col (.str v))) := by
  constructor
  · exact h.keyed.setRow fun r => Function.update_of_ne hid.symm _ _
  · intro r hr c hc
    obtain ⟨r', hr', rfl⟩ := List.mem_map.mp hr
    split
    · rw [setCol_text haff]
      by_cases heq : c = col.name
      · subst heq
        exact ⟨v, Function.update_self ..⟩
      · rw [Function.update_of_ne heq]
        exact h.texts r' hr' c hc
    · exact h.texts r' hr' c hc

theorem updateItemsInfo (upc : Str) (key : MappedKey) (v : Str) : ItemTable
    ((y.engine.execStmt catalog (Built.stmt y (.updateItemsInfo upc key v)) db).db itemTable) := by
  rw [show Built.stmt y (.updateItemsInfo upc key v) = updateStmt .items key.column v upc from rfl]
  by_cases herr : (y.engine.execStmt catalog (updateStmt .items key.column v upc) db).err = none
  · obtain ⟨col, hfind, ⟨-, hdb⟩ | ⟨r₀, -, hdb⟩⟩ :=
      execStmt_update_cases (u := .items) key.column_mem h.keyed herr
    · rwa [hdb]
    · obtain ⟨haff, hid⟩ := itemColumn_text key.column_mem hfind
      rw [hdb]
      show ItemTable (Function.update db itemTable _ itemTable)
      rw [Function.update_self]
      exact h.setRow haff hid v
  · rwa [Engine.execStmt_of_err herr]

end ItemTable

/-! ## Runs of commands on items -/

/-- A command that adds, updates or deletes items, without quotes in its fields. -/
def ItemCommand (cmd : Str) : Prop :=
  ∃ l, parseRequest cmd = .db l ∧ (l.op = .addItem ∨ l.op = .updateItem ∨ l.op = .dltItem) ∧
    ∀ b ∈ l.built, ∀ f ∈ b.asGiven, QuoteFree f

theorem itemTable_processed {w w' : World} {c : Session × Str} (hc : ItemCommand c.2)
    (h : ItemTable (w.srv.db itemTable)) (hstep : processed y w c = some w') :
    ItemTable (w'.srv.db itemTable) := by
  obtain ⟨l, hreq, hop, hplain⟩ := hc
  obtain ⟨saved, hrun⟩ := processCmd_run y c.2 { w with sess := c.1 }
  obtain rfl := Option.some.inj hstep
  rw [hrun, hreq]
  rcases DbLeaf.table_cases (y := y) (w := { w with saved, sess := c.1 }) itemTable
    (fun _ => hplain) with hkept | ⟨-, b, hb, -, hdb⟩
  · show ItemTable (((l.prog y).run { w with saved, sess := c.1 }).state.srv.db itemTable)
    rwa [hkept]
  · show ItemTable (((l.prog y).run { w with saved, sess := c.1 }).state.srv.db itemTable)
    rw [hdb]
    cases l with
    | addItem upc quantity price name =>
      cases hb
      exact h.addItems _ _ _ _
    | updateItem upc key v =>
      obtain ⟨k, -, rfl⟩ := Option.map_eq_some_iff.mp hb
      exact h.updateItemsInfo _ k _
    | dltItem upc =>
      cases hb
      exact h.deleteItem _
    | _ => simp [DbLeaf.op] at hop

/-- The items tables of a run. -/
theorem itemTable_run {w₀ w : World} {cs : List (Session × Str)}
    (hempty : (w₀.srv.db itemTable).rows = []) (hcs : ∀ c ∈ cs, ItemCommand c.2)
    (hrun : runSteps (processed y) w₀ cs = some w) : ItemTable (w.srv.db itemTable) := by
  have hsteps := @AllSteps.of_forall _ _ (processed y) (fun c => ItemCommand c.2) cs w₀ hcs
  exact (@EveryState.of_allSteps _ _ (processed y) (fun _ c => ItemCommand c.2)
    (fun v => ItemTable (v.srv.db itemTable))
    (fun _ _ _ hv hc hstep => itemTable_processed hc hv hstep) cs w₀
    (itemTable_empty hempty) hsteps).last hrun

/-! ## What is listed -/

variable (y)

/-- The items that `get-list` reports. -/
def reported (db : Db) : List RowText := shownRows y getAllItemsSql db

/-- The update of an item is seen in every item reported with the UPC, and the items
reported with another one are as they were. -/
def ItemsUpdated (db db' : Db) (upc col value : Str) : Prop :=
  (∀ row ∈ reported y db', (upcCol, some upc) ∈ row → (col, some value) ∈ row) ∧
  ((reported y db').filter fun row => decide ((upcCol, some upc) ∉ row)).Perm
    ((reported y db).filter fun row => decide ((upcCol, some upc) ∉ row))

instance (db db' : Db) (upc col value : Str) : Decidable (ItemsUpdated y db db' upc col value) :=
  inferInstanceAs (Decidable (_ ∧ _))

/-- The items of a UPC that an update of it does not reach. -/
def missedItems (db : Db) (upc : Str) : List Row :=
  (db itemTable).rows.filter fun r =>
    decide (r upcCol = .text upc ∧ (updatedRow y .items db upc).map (· idCol) ≠ some (r idCol))

/-- An item as it is reported. -/
def shownItem : Row → RowText :=
  shownColumns [textColumn "UPC", textColumn "Quantity", textColumn "Price", ⟨lit "Name", .text, false⟩]

variable {y}

theorem reported_perm (db : Db) : (reported y db).Perm ((db itemTable).rows.map shownItem) := by
  rw [reported, shownRows, exec_getAllItems]
  exact (visited_perm y itemsInformation itemsQuery db).map _

/-- What is reported of a column is what is in it. -/
theorem mem_shownItem {r : Row} (hr : ∀ c ∈ itemCols, ∃ s, r c = .text s) {c s : Str}
    (hc : c ∈ itemCols) : (c, some s) ∈ shownItem r ↔ r c = .text s := by
  obtain ⟨s', hs'⟩ := hr c hc
  have hshown : (c, some s) ∈ shownItem r ↔ some s = (r c).render := by
    show (c, some s) ∈ itemCols.map (fun c => (c, (r c).render)) ↔ _
    rw [List.mem_map]
    constructor
    · rintro ⟨c', -, heq⟩
      obtain ⟨rfl, h⟩ := Prod.mk.inj heq
      exact h.symm
    · exact fun h => ⟨c, hc, Prod.ext rfl h.symm⟩
  rw [hshown, hs']
  constructor
  · exact fun h => congrArg Value.text (Option.some.inj h).symm
  · exact fun h => congrArg some (Value.text.inj h).symm

/-- Without other items of the UPC none is missed. -/
theorem missedItems_of_sole {upc : Str} (h : ∀ r ∈ (db itemTable).rows, ∀ r' ∈ (db itemTable).rows,
    r upcCol = .text upc → r' upcCol = .text upc → r = r') : missedItems y db upc = [] := by
  refine List.filter_eq_nil_iff.mpr fun r hr hmissed => ?_
  obtain ⟨hupc, hne⟩ := of_decide_eq_true hmissed
  obtain ⟨r₀, hr₀⟩ := exists_updatedRow (y := y) (u := .items) hr hupc
  obtain ⟨hmem, hupc₀⟩ := updatedRow_mem hr₀
  rw [hr₀, h r hr r₀ hmem hupc hupc₀] at hne
  exact hne rfl

/-! ## Updates -/

/-- The column under one of the keys. -/
theorem itemKeys_column {key col : Str} (h : (key, col) ∈ itemKeys) :
    ∃ k : MappedKey, mappedKey (some key) = some k ∧ k.column = col ∧ col ∈ itemCols ∧
      col ≠ upcCol ∧ ∃ column, itemsInformation.find col = some column ∧ column.name = col := by
  simp only [itemKeys, List.mem_cons, Prod.mk.injEq, List.not_mem_nil, or_false] at h
  rcases h with ⟨rfl, rfl⟩ | ⟨rfl, rfl⟩ | ⟨rfl, rfl⟩
  · exact ⟨⟨.itemcount, rfl⟩, by decide +kernel, by decide +kernel, by decide, by decide,
      textColumn "Quantity", rfl, rfl⟩
  · exact ⟨⟨.itemprice, rfl⟩, by decide +kernel, by decide +kernel, by decide, by decide,
      textColumn "Price", rfl, rfl⟩
  · exact ⟨⟨.itemname, rfl⟩, by decide +kernel, by decide +kernel, by decide, by decide,
      ⟨lit "Name", .text, false⟩, rfl, rfl⟩

/-- The items reported with another UPC. -/
theorem reported_others (h : ItemTable (db itemTable)) (upc : Str) :
    ((reported y db).filter fun row => decide ((upcCol, some upc) ∉ row)).Perm
      (((db itemTable).rows.filter fun r => decide (r upcCol ≠ .text upc)).map shownItem) := by
  have hfilter : ((db itemTable).rows.map shownItem).filter
      (fun row => decide ((upcCol, some upc) ∉ row))
        = ((db itemTable).rows.filter fun r => decide (r upcCol ≠ .text upc)).map shownItem := by
    rw [List.filter_map]
    refine congrArg _ (List.filter_congr fun r hr => ?_)
    exact decide_eq_decide.mpr (not_congr (mem_shownItem (h.texts r hr) (List.mem_cons_self ..)))
  rw [← hfilter]
  exact (reported_perm db).filter _

section Updated

variable {db' : Db} {upc value : Str} {col : Column} {r₀ : Row} (h : ItemTable (db itemTable))
  (haff : col.aff = .text) (hid : col.name ≠ idCol) (hrow : updatedRow y .items db upc = some r₀)
  (hdb : db' = Function.update db itemTable
    ((db itemTable).setRow idCol r₀ (y.engine.setCol col (.str value))))

include h haff hid hrow hdb

/-- The row changed is one of the UPC, so the items of other UPCs are left. -/
theorem others_kept (hcol : col.name ≠ upcCol) :
    ((reported y db').filter fun row => decide ((upcCol, some upc) ∉ row)).Perm
      ((reported y db).filter fun row => decide ((upcCol, some upc) ∉ row)) := by
  obtain ⟨hr₀, hupc⟩ := updatedRow_mem hrow
  have hrows : (db' itemTable).rows.filter (fun r => decide (r upcCol ≠ .text upc))
      = (db itemTable).rows.filter fun r => decide (r upcCol ≠ .text upc) := by
    rw [hdb, Function.update_self, Table.filter_setRow, List.filter_filter]
    · refine List.filter_congr fun r hr => ?_
      by_cases hsame : r idCol = r₀ idCol
      · rw [h.keyed.eq_of_key hr hr₀ hsame, decide_eq_false fun hne => hne hupc, Bool.false_and]
      · rw [decide_eq_true hsame, Bool.and_true]
    -- the row changed has the UPC, before and after
    · intro r hr hsame
      refine decide_eq_false fun hne => hne ?_
      rw [h.keyed.eq_of_key hr hr₀ hsame]
      exact (Function.update_of_ne hcol.symm _ _).trans hupc
  have h' : ItemTable (db' itemTable) := by
    rw [hdb, Function.update_self]
    exact h.setRow haff hid value
  refine (reported_others h' upc).trans ?_
  rw [hrows]
  exact (reported_others h upc).symm

/-- The items of the UPC. -/
theorem updated_iff (hmem : col.name ∈ itemCols) :
    (∀ row ∈ reported y db', (upcCol, some upc) ∈ row → (col.name, some value) ∈ row) ↔
      ∀ r ∈ missedItems y db upc, r col.name = .text value := by
  obtain ⟨hr₀, hupc⟩ := updatedRow_mem hrow
  have h' : ItemTable (db' itemTable) := by
    rw [hdb, Function.update_self]
    exact h.setRow haff hid value
  have hrows {r : Row} : r ∈ (db' itemTable).rows ↔
      r = y.engine.setCol col (.str value) r₀ ∨ r ∈ (db itemTable).rows ∧ r idCol ≠ r₀ idCol := by
    rw [hdb, Function.update_self]
    exact h.keyed.mem_setRow hr₀
  have hupcCol : upcCol ∈ itemCols := List.mem_cons_self ..
  constructor
  · intro hall r hr
    obtain ⟨hr, hmissed⟩ := List.mem_filter.mp hr
    obtain ⟨hru, hne⟩ := of_decide_eq_true hmissed
    rw [hrow] at hne
    -- an item that is missed is reported as it was
    have hr' : r ∈ (db' itemTable).rows :=
      hrows.mpr (.inr ⟨hr, fun hsame => hne (congrArg some hsame.symm)⟩)
    have hshown : shownItem r ∈ reported y db' :=
      (reported_perm db').mem_iff.mpr (List.mem_map_of_mem hr')
    have hin := hall _ hshown ((mem_shownItem (h'.texts r hr') hupcCol).mpr hru)
    exact (mem_shownItem (h'.texts r hr') hmem).mp hin
  · intro hall row hshown hin
    obtain ⟨r, hr, rfl⟩ := List.mem_map.mp ((reported_perm db').mem_iff.mp hshown)
    refine (mem_shownItem (h'.texts r hr) hmem).mpr ?_
    have hru := (mem_shownItem (h'.texts r hr) hupcCol).mp hin
    -- the row that the update has reached, or one it has missed
    rcases hrows.mp hr with rfl | ⟨hr, hne⟩
    · rw [setCol_text haff]
      exact Function.update_self ..
    · refine hall r (List.mem_filter.mpr ⟨hr, decide_eq_true ⟨hru, ?_⟩⟩)
      rw [hrow]
      exact fun hsame => hne (Option.some.inj hsame).symm

end Updated

/-- Where no item has the UPC nothing is updated, and nothing is missed. -/
theorem itemsUpdated_of_none (h : ItemTable (db itemTable)) {upc : Str} (col value : Str)
    (hrow : updatedRow y .items db upc = none) :
    ItemsUpdated y db db upc col value ∧ missedItems y db upc = [] := by
  have hnone := updatedRow_eq_none_iff.mp hrow
  refine ⟨⟨fun row hshown hin => ?_, List.Perm.refl _⟩, ?_⟩
  · obtain ⟨r, hr, rfl⟩ := List.mem_map.mp ((reported_perm db).mem_iff.mp hshown)
    have hru := (mem_shownItem (h.texts r hr) (List.mem_cons_self ..)).mp hin
    exact absurd hru (hnone r hr)
  · exact List.filter_eq_nil_iff.mpr fun r hr hmissed => hnone r hr (of_decide_eq_true hmissed).1

/-- The statement of an update that goes through. -/
theorem itemsUpdated_execStmt (h : ItemTable (db itemTable)) {db' : Db} {upc value : Str}
    {k : MappedKey} {col : Column} (hfind : itemsInformation.find k.column = some col)
    (hmem : col.name ∈ itemCols) (hne : col.name ≠ upcCol)
    (herr : (y.engine.execStmt catalog (updateStmt .items k.column value upc) db).err = none)
    (hdb : db' = (y.engine.execStmt catalog (updateStmt .items k.column value upc) db).db) :
    ItemsUpdated y db db' upc col.name value ↔
      ∀ r ∈ missedItems y db upc, r col.name = .text value := by
  obtain ⟨col', hfind', ⟨hrow, hset⟩ | ⟨r₀, hrow, hset⟩⟩ :=
    execStmt_update_cases (u := .items) k.column_mem h.keyed herr
  · obtain ⟨hupdated, hmissed⟩ := itemsUpdated_of_none h col.name value hrow
    rw [hdb, hset, hmissed]
    exact iff_of_true hupdated fun _ hr => nomatch hr
  · obtain rfl : col = col' := Option.some.inj (hfind.symm.trans hfind')
    obtain ⟨haff, hid⟩ := itemColumn_text k.column_mem hfind
    unfold ItemsUpdated
    rw [and_iff_left (others_kept h haff hid hrow (hdb.trans hset) hne)]
    exact updated_iff h haff hid hrow (hdb.trans hset) hmem

/-- **The update of an item is seen under its UPC** if and only if the items of the UPC that
it does not reach have the value already. -/
theorem itemsUpdated_iff {w₀ w : World} {cs : List (Session × Str)}
    (hempty : (w₀.srv.db itemTable).rows = []) (hcs : ∀ c ∈ cs, ItemCommand c.2)
    (hrun : runSteps (processed y) w₀ cs = some w) {s : Session} {cmd upc key col value : Str}
    (hkey : (key, col) ∈ itemKeys)
    (hcmd : parseRequest cmd = .db (.updateItem (some upc) (some key) (some value)))
    (hupc : QuoteFree upc) (hvalue : QuoteFree value)
    (hok : Answered (lit "resp,ok") (commanded y w s cmd).out) :
    ItemsUpdated y w.srv.db (commanded y w s cmd).state.srv.db upc col value ↔
      ∀ r ∈ missedItems y w.srv.db upc, r col = .text value := by
  have htable := itemTable_run hempty hcs hrun
  obtain ⟨k, hk, rfl, hmem, hne, column, hfind, hname⟩ := itemKeys_column hkey
  obtain ⟨saved, hprog⟩ := processCmd_run y cmd { w with sess := s }
  unfold commanded at hok ⊢
  rw [hprog, hcmd] at hok ⊢
  have hbuilt : (DbLeaf.updateItem (some upc) (some key) (some value)).built
      = some (.updateItemsInfo upc k value) := congrArg (Option.map _) hk
  have hplain : ∀ b ∈ (DbLeaf.updateItem (some upc) (some key) (some value)).built,
      ∀ f ∈ b.asGiven, QuoteFree f := by
    rw [hbuilt]
    rintro b ⟨⟩ f hf
    rcases List.mem_pair.mp hf with rfl | rfl
    · exact hvalue
    · exact hupc
  obtain ⟨b, hb, herr, hdb⟩ := @DbLeaf.of_ok y { w with saved, sess := s }
    (.updateItem (some upc) (some key) (some value)) rfl
    (show Op.updateItem ≠ .dltUsr by decide) hplain hok
  rw [hbuilt] at hb
  cases hb
  rw [← hname] at hmem hne ⊢
  exact itemsUpdated_execStmt htable hfind hmem hne herr hdb

/-! ## Rice -/

/-- One item. -/
def riceStored : World := (commanded quietSys (.before initDataRoot .empty) initDataRoot
  (lit "db,add,items,1,5,10,rice,<$#EOT#$>")).state

/-- A second one of its UPC. -/
def riceTwice : World :=
  (commanded quietSys riceStored initDataRoot (lit "db,add,items,1,5,10,brown rice,<$#EOT#$>")).state

theorem runSteps_commanded_two (w : World) (s s' : Session) (cmd cmd' : Str) :
    runSteps (processed y) w [(s, cmd), (s', cmd')]
      = some (commanded y (commanded y w s cmd).state s' cmd').state := rfl

theorem itemCommand_add {cmd upc quantity price name : Str}
    (hreq : parseRequest cmd = .db (.addItem (some upc) (some quantity) (some price) (some name)))
    (hplain : ∀ f ∈ [upc, quantity, price, name], QuoteFree f) : ItemCommand cmd :=
  ⟨_, hreq, .inl rfl, by rintro b ⟨⟩; exact hplain⟩

/-- A new price of the only item of a UPC. -/
theorem itemsUpdated_rice : ItemsUpdated quietSys riceStored.srv.db
    (commanded quietSys riceStored initDataRoot
      (lit "db,update,items,1,item-price,12,<$#EOT#$>")).state.srv.db
    (lit "1") (lit "Price") (lit "12") :=
  (@itemsUpdated_iff quietSys (.before initDataRoot .empty) riceStored
    [(initDataRoot, lit "db,add,items,1,5,10,rice,<$#EOT#$>")] rfl
    (fun c hc => by
      rw [List.mem_singleton.mp hc]
      exact @itemCommand_add _ (lit "1") (lit "5") (lit "10") (lit "rice") (by decide +kernel)
        (by decide))
    (runSteps_commanded ..) initDataRoot (lit "db,update,items,1,item-price,12,<$#EOT#$>")
    (lit "1") (lit "item-price") (lit "Price") (lit "12") (by decide) (by decide +kernel)
    (by decide) (by decide) (by decide +kernel)).mpr (by decide +kernel)

/-- The second item keeps its price. -/
theorem not_itemsUpdated :
    ¬ ∀ (y : Sys) (w₀ w : World) (cs : List (Session × Str)) (s : Session)
      (cmd upc key col value : Str), (w₀.srv.db itemTable).rows = [] →
      (∀ c ∈ cs, ItemCommand c.2) → runSteps (processed y) w₀ cs = some w →
      (key, col) ∈ itemKeys →
      parseRequest cmd = .db (.updateItem (some upc) (some key) (some value)) →
      QuoteFree upc → QuoteFree value → Answered (lit "resp,ok") (commanded y w s cmd).out →
      ItemsUpdated y w.srv.db (commanded y w s cmd).state.srv.db upc col value := by
  intro h
  have hupdated := h quietSys (.before initDataRoot .empty) riceTwice
    [(initDataRoot, lit "db,add,items,1,5,10,rice,<$#EOT#$>"),
      (initDataRoot, lit "db,add,items,1,5,10,brown rice,<$#EOT#$>")] initDataRoot
    (lit "db,update,items,1,item-price,12,<$#EOT#$>") (lit "1") (lit "item-price") (lit "Price")
    (lit "12") rfl (fun c hc => by
      rcases List.mem_pair.mp hc with rfl | rfl
      · exact @itemCommand_add _ (lit "1") (lit "5") (lit "10") (lit "rice") (by decide +kernel)
          (by decide)
      · exact @itemCommand_add _ (lit "1") (lit "5") (lit "10") (lit "brown rice")
          (by decide +kernel) (by decide))
    (runSteps_commanded_two ..) (by decide) (by decide +kernel) (by decide) (by decide) (by decide +kernel)
  exact absurd hupdated (by decide +kernel)

end Thor
