import Thor.Database.Templates

/-!
# Listings

A listing collects the texts of its rows through a stream over an array of its
own, and takes the result from that array. What it finds there is what the stream
has not handed on yet.

- `Stream.After`, `puts_fits`: the array after any number of bytes. As long as
  they fit the size told to `setvbuf`, it holds all of them, in order; from then
  on it is full, and holds as many as it can.
- `run_listInto`: a listing as a function of the rows its query shows.
- `complete_iff`: the result is the whole list if and only if every row fits the
  array of its callback, and all together the stream's.
-/

namespace Thor

open CLib Sql Prog

/-! ## The stream -/

/-- A stream of `size` bytes that `n` bytes have gone through. -/
structure Stream.After (size n : Nat) (st : Stream) : Prop where
  length : st.buf.length = min n size
  pos_le : st.pos ≤ st.buf.length
  pos_eq : n ≤ size → st.pos = n

theorem Stream.after_zero (size : Nat) : Stream.After size 0 ⟨[], 0⟩ :=
  ⟨(Nat.zero_min size).symm, Nat.le_refl _, fun _ => rfl⟩

theorem Stream.After.putc {size n : Nat} {st : Stream} (h : st.After size n) (hsize : 0 < size)
    (c : Char) : (st.putc size c).After size (n + 1) := by
  obtain ⟨hlen, hle, heq⟩ := h
  by_cases hn : n < size
  · -- the next byte goes behind the others
    have hpos : st.pos = n := heq (Nat.le_of_lt hn)
    have hne : st.pos ≠ size := by omega
    refine ⟨?_, ?_, fun _ => ?_⟩ <;>
      simp only [Stream.putc, if_neg hne, List.length_append, List.length_take, List.length_cons,
        List.length_drop] <;> omega
  · -- the array is full and stays so
    have hfull : st.buf.length = size := by omega
    by_cases hpos : st.pos = size
    · refine ⟨?_, ?_, fun hn' => absurd hn' (by omega)⟩ <;>
        simp only [Stream.putc, if_pos hpos, List.length_append, List.length_take,
          List.length_cons, List.length_drop] <;> omega
    · refine ⟨?_, ?_, fun hn' => absurd hn' (by omega)⟩ <;>
        simp only [Stream.putc, if_neg hpos, List.length_append, List.length_take,
          List.length_cons, List.length_drop] <;> omega

theorem Stream.After.puts {size : Nat} (hsize : 0 < size) :
    ∀ {n : Nat} {st : Stream} (s : Str), st.After size n →
      (st.puts size s).After size (n + s.length)
  | _, _, [], h => h
  | n, _, c :: s, h => by
    have ih := Stream.After.puts hsize s (h.putc hsize c)
    rw [List.length_cons, show n + (s.length + 1) = n + 1 + s.length by omega]
    exact ih

theorem Stream.puts_append (size : Nat) (st : Stream) (s t : Str) :
    st.puts size (s ++ t) = (st.puts size s).puts size t := List.foldl_append

/-- Bytes that fit stand behind each other. -/
theorem Stream.puts_fits {size : Nat} : ∀ (s t : Str), s.length + t.length ≤ size →
    Stream.puts size ⟨s, s.length⟩ t = ⟨s ++ t, (s ++ t).length⟩
  | s, [], _ => by simp [Stream.puts]
  | s, c :: t, h => by
    rw [List.length_cons] at h
    have hne : s.length ≠ size := by omega
    have hput : Stream.putc size ⟨s, s.length⟩ c = ⟨s ++ [c], (s ++ [c]).length⟩ := by
      simp [Stream.putc, hne]
    have ih := @Stream.puts_fits size (s ++ [c]) t (by
      rw [List.length_append, List.length_singleton]
      omega)
    show Stream.puts size (Stream.putc size ⟨s, s.length⟩ c) t = _
    rw [hput, ih, List.append_assoc, List.singleton_append]

/-! ## The rows -/

/-- The text of a row in a listing. -/
def rowText (row : RowText) : Str :=
  (lit "\x7b " ++ (row.map fun p =>
    sprintf (lit "\"%s\" : \"%s\",") [p.1, p.2.getD (lit "NULL")]).flatten).dropLast ++ lit "\x7d"

theorem renderRow_eq (row : RowText) : renderRow row = rowText row ++ comma :=
  (List.append_assoc _ (lit "\x7d") comma).symm

/-- All that the callback writes. -/
def rendered (rows : List RowText) : Str := (rows.map renderRow).flatten

/-- The whole list. -/
def listing (rows : List RowText) : Str :=
  if rows = [] then lit "[]"
  else lit "[ " ++ List.intercalate comma (rows.map rowText) ++ lit "]"

/-- The rows, each with its comma. -/
theorem rendered_eq : ∀ {rows : List RowText}, rows ≠ [] →
    rendered rows = List.intercalate comma (rows.map rowText) ++ comma
  | [], h => absurd rfl h
  | [row], _ => by
    rw [List.map_singleton, List.intercalate_singleton, ← renderRow_eq]
    exact List.append_nil _
  | row :: row' :: rows, _ => by
    have ih := @rendered_eq (row' :: rows) (by simp)
    show renderRow row ++ rendered (row' :: rows) = _
    rw [ih, renderRow_eq]
    simp only [List.map_cons, List.intercalate_cons_cons, List.append_assoc]

/-- The last comma becomes the bracket. -/
theorem listing_eq (rows : List RowText) :
    listing rows = (lit "[ " ++ rendered rows).dropLast ++ lit "]" := by
  by_cases h : rows = []
  · subst h
    rfl
  · rw [rendered_eq h, ← List.append_assoc, show comma = [','] from rfl, List.dropLast_concat,
      listing, if_neg h]
    rfl

/-- Every row fits the array of the callback. -/
def RowsFit (cap : Nat) (rows : List RowText) : Prop :=
  ∀ row ∈ rows, (renderRow row).length < cap

instance {cap : Nat} {rows : List RowText} : Decidable (RowsFit cap rows) :=
  inferInstanceAs (Decidable (∀ row ∈ rows, (renderRow row).length < cap))

theorem foldlM_listRow {rowCap : Nat} (size : Nat) : ∀ {rows : List RowText} (st : Stream),
    RowsFit rowCap rows →
      rows.foldlM (listRow rowCap size) st = .ok (st.puts size (rendered rows))
  | [], _, _ => rfl
  | row :: rows, st, h => by
    have hrow : listRow rowCap size st row = .ok (st.puts size (renderRow row)) :=
      if_pos (fits_iff.mpr (h row (List.mem_cons_self ..)))
    have ih := foldlM_listRow size (st.puts size (renderRow row))
      fun r hr => h r (List.mem_cons_of_mem _ hr)
    rw [List.foldlM_cons, hrow, show rendered (row :: rows) = renderRow row ++ rendered rows from rfl,
      Stream.puts_append]
    exact ih

/-- The callback stops the query at the first row that does not fit. -/
theorem foldlM_listRow_overflow {rowCap : Nat} (size : Nat) : ∀ {rows : List RowText} (st : Stream),
    ¬ RowsFit rowCap rows → rows.foldlM (listRow rowCap size) st = .error .overflow
  | [], _, h => absurd (by simp [RowsFit]) h
  | row :: rows, st, h => by
    rw [List.foldlM_cons]
    by_cases hrow : (renderRow row).length < rowCap
    · have hput : listRow rowCap size st row = .ok (st.puts size (renderRow row)) :=
        if_pos (fits_iff.mpr hrow)
      rw [hput]
      exact foldlM_listRow_overflow size _ fun h' => h (List.forall_mem_cons.mpr ⟨hrow, h'⟩)
    · have hstop : listRow rowCap size st row = .error .overflow :=
        if_neg fun h' => hrow (fits_iff.mp h')
      rw [hstop]
      rfl

/-! ## A listing -/

variable (y : Sys)

/-- What the query of a listing shows. -/
def shownRows (sql : Str) (db : Db) : List RowText := (y.engine.exec catalog sql db).rows

/-- What a listing leaves in the array of its stream. -/
def collected (size : Nat) (rows : List RowText) : Str :=
  (Stream.puts size ⟨[], 0⟩ (rendered rows)).buf

theorem collected_length {size : Nat} (hsize : 0 < size) (rows : List RowText) :
    (collected size rows).length = min (rendered rows).length size := by
  have h := ((Stream.after_zero size).puts hsize (rendered rows)).length
  rwa [Nat.zero_add] at h

/-- The array holds all of it if and only if it fits. -/
theorem collected_eq_iff {size : Nat} (hsize : 0 < size) (rows : List RowText) :
    collected size rows = rendered rows ↔ (rendered rows).length ≤ size := by
  constructor
  · intro h
    have hlen := collected_length hsize rows
    rw [h] at hlen
    omega
  · intro h
    have hput := Stream.puts_fits [] (rendered rows) (by simpa using h)
    exact congrArg Stream.buf hput

/-- The value a listing leaves in the result slot. -/
def leftInValue (size : Nat) (rows : List RowText) : Str :=
  (lit "[ " ++ collected size rows).dropLast ++ lit "]"

theorem leftInValue_eq_iff {size : Nat} (hsize : 0 < size) (rows : List RowText) :
    leftInValue size rows = listing rows ↔ (rendered rows).length ≤ size := by
  rw [leftInValue, listing_eq]
  constructor
  · intro h
    have hlen := congrArg List.length (List.append_cancel_right h)
    rw [List.length_dropLast, List.length_dropLast, List.length_append, List.length_append,
      collected_length hsize, show (lit "[ ").length = 2 from rfl] at hlen
    omega
  · intro h
    rw [(collected_eq_iff hsize rows).mpr h]

/-- The world after a call of the engine that is let through. -/
def World.executed (w : World) (sql : Str) : World :=
  { w with
    tick := w.tick + 1
    srv := { w.srv with db := (y.engine.exec catalog sql w.srv.db).db } }

theorem run_sqlite3Exec_of_fault {β : Type} {w : World} (hfault : y.fault w.tick = none)
    (sql : Str) (callback : β → RowText → Except Crash β) (data : β) :
    (sqlite3Exec y sql callback data).run w =
      ⟨((shownRows y sql w.srv.db).foldlM callback data).map fun b =>
          (b, (y.engine.exec catalog sql w.srv.db).err.map fun msg => .error (some msg)),
        w.executed y sql, [.exec sql]⟩ := by
  unfold sqlite3Exec shownRows
  cases hrows : (y.engine.exec catalog sql w.srv.db).rows.foldlM callback data with
  | ok b => simp [run_bind, hfault, hrows, Except.map, World.executed]
  | error c => simp [run_bind, hfault, hrows, Except.map, World.executed]

/-- A listing that has its buffer for the result. -/
def collectRows (sz : Sizes) (b : Buf) (sql : Str) : M Int := do
  let r ← sqlite3Exec y sql (listRow sz.row sz.stream) ⟨[], 0⟩
  storeMessage r.2
  if r.2.isNone then
    let stbuf ← sprintfInto sz.stbuf r.1.buf
    let value ← sprintfInto sz.value (sprintf (lit "[ %s") [stbuf])
    setValue (some ⟨b.id, value.dropLast ++ lit "]"⟩)
  pure (status r.2)

/-- The world a listing queries the database in. -/
def World.listing (w : World) (opening : Str) : World :=
  { w with nextBuf := w.nextBuf + 1, sess := { w.sess with value := some ⟨w.nextBuf, opening⟩ } }

theorem run_listInto (sz : Sizes) (opening sql : Str) (w : World) :
    (listInto y sz opening sql).run w =
      ⟨((collectRows y sz ⟨w.nextBuf, opening⟩ sql).run (w.listing opening)).val,
        ((collectRows y sz ⟨w.nextBuf, opening⟩ sql).run (w.listing opening)).state,
        .alloc w.nextBuf :: ((collectRows y sz ⟨w.nextBuf, opening⟩ sql).run (w.listing opening)).out⟩ :=
  rfl

section Collect

variable {y} {w : World} {sz : Sizes} {sql : Str} (hfault : y.fault w.tick = none)

include hfault

theorem collectRows_overflow (b : Buf) (hfit : ¬ RowsFit sz.row (shownRows y sql w.srv.db)) :
    ((collectRows y sz b sql).run w).val = .error .overflow := by
  have hexec := run_sqlite3Exec_of_fault y hfault sql (listRow sz.row sz.stream) ⟨[], 0⟩
  rw [foldlM_listRow_overflow sz.stream _ hfit] at hexec
  unfold collectRows
  rw [run_bind_of_error (congrArg Outcome.val hexec)]

/-- Rows that all fit leave what the stream's array holds of them. -/
theorem collectRows_fits (b : Buf) (herr : (y.engine.exec catalog sql w.srv.db).err = none)
    (hstbuf : (collected sz.stream (shownRows y sql w.srv.db)).length < sz.stbuf)
    (hvalue : (collected sz.stream (shownRows y sql w.srv.db)).length + 2 < sz.value)
    (hfit : RowsFit sz.row (shownRows y sql w.srv.db)) :
    ((collectRows y sz b sql).run w).val = .ok 0 ∧
      ((collectRows y sz b sql).run w).state.sess.value
        = some ⟨b.id, leftInValue sz.stream (shownRows y sql w.srv.db)⟩ ∧
      ((collectRows y sz b sql).run w).state.srv.db = (y.engine.exec catalog sql w.srv.db).db := by
  have hexec := run_sqlite3Exec_of_fault y hfault sql (listRow sz.row sz.stream) ⟨[], 0⟩
  rw [foldlM_listRow sz.stream _ hfit, herr] at hexec
  have hval : (lit "[ " ++ collected sz.stream (shownRows y sql w.srv.db)).length < sz.value := by
    rw [List.length_append, show (lit "[ ").length = 2 from rfl]
    omega
  have hfmt : ∀ s, sprintf (lit "[ %s") [s] = lit "[ " ++ s := fun s =>
    congrArg (lit "[ " ++ ·) (List.append_nil s)
  have hcol : (Stream.puts sz.stream ⟨[], 0⟩ (rendered (shownRows y sql w.srv.db))).buf
      = collected sz.stream (shownRows y sql w.srv.db) := rfl
  unfold collectRows
  rw [run_bind_of_run hexec, run_bind_of_run (a := ()) rfl]
  simp only [Option.map_none, Option.isNone_none, if_true, hfmt, hcol]
  rw [run_bind_of_run (run_sprintfInto_of_fits hstbuf _),
    run_bind_of_run (run_sprintfInto_of_fits hval _)]
  exact ⟨rfl, rfl, rfl⟩

end Collect

/-! ## The two listings -/

/-- The listing is complete: it succeeds, and leaves all of `rows` in the result slot. -/
def Lists (m : M Int) (w : World) (rows : List RowText) : Prop :=
  (m.run w).val = .ok 0 ∧ ∃ id, (m.run w).state.sess.value = some ⟨id, listing rows⟩

theorem lists_iff {w : World} {sz : Sizes} {opening sql : Str} (hfault : y.fault w.tick = none)
    (herr : (y.engine.exec catalog sql w.srv.db).err = none)
    (hpos : 0 < sz.stream) (hstbuf : sz.stream < sz.stbuf) (hvalue : sz.stream + 2 < sz.value) :
    Lists (listInto y sz opening sql) w (shownRows y sql w.srv.db) ↔
      RowsFit sz.row (shownRows y sql w.srv.db) ∧
        (rendered (shownRows y sql w.srv.db)).length ≤ sz.stream := by
  rw [Lists, run_listInto, ← leftInValue_eq_iff hpos]
  dsimp only
  by_cases hfit : RowsFit sz.row (shownRows y sql w.srv.db)
  · have hlen := collected_length hpos (shownRows y sql w.srv.db)
    obtain ⟨hval, hvalue, -⟩ := @collectRows_fits y (w.listing opening) sz sql hfault
      ⟨w.nextBuf, opening⟩ herr (show (collected _ (shownRows y sql w.srv.db)).length < _ by omega)
      (show (collected _ (shownRows y sql w.srv.db)).length + 2 < _ by omega) hfit
    rw [hval, hvalue]
    constructor
    · rintro ⟨-, id, h⟩
      exact ⟨hfit, congrArg Buf.text (Option.some.inj h)⟩
    · rintro ⟨-, h⟩
      exact ⟨rfl, w.nextBuf, congrArg (fun s => some (Buf.mk w.nextBuf s)) h⟩
  · have hval := @collectRows_overflow y (w.listing opening) sz sql hfault ⟨w.nextBuf, opening⟩ hfit
    rw [hval]
    exact ⟨fun h => (nomatch h.1), fun h => absurd h.1 hfit⟩

/-- The columns of a row as a query shows them. -/
def shownColumns (cols : List Column) (r : Row) : RowText :=
  cols.map fun col => (col.name, (r col.name).render)

/-- The rows of a table in the order a query visits them: each of them once. -/
def visited (sch : Schema) (q : Stmt) (db : Db) : List Row :=
  y.engine.scan sch q (db sch.name).rows

theorem visited_perm (sch : Schema) (q : Stmt) (db : Db) :
    (visited y sch q db).Perm (db sch.name).rows := y.engine.scan_perm ..

/-- A text that asks for columns of all rows of a table. -/
theorem exec_selectAll {sql : Str} {sch : Schema} {cols : Option (List Str)} {t : Str}
    (hparse : parse (tokenize sql) = some [.select cols t .tt])
    (hcheck : checkStmt catalog (.select cols t .tt) = .ok) (hfind : catalog.find t = some sch)
    (db : Db) :
    y.engine.exec catalog sql db =
      ⟨db, (visited y sch (.select cols t .tt) db).map
        (shownColumns (match cols with | some cs => cs.filterMap sch.find | none => sch.cols)),
        none⟩ := by
  rw [Engine.exec_of_parse hparse (by rw [hcheck]; decide)]
  unfold Engine.execStmt
  rw [hcheck, show (Stmt.select cols t .tt).table = t from rfl, hfind]
  have hall : (db sch.name).rows.filter (y.engine.hits catalog db sch .tt) = (db sch.name).rows :=
    List.filter_eq_self.mpr fun _ _ => rfl
  show y.engine.effect catalog db sch (.select cols t .tt) = _
  simp only [Engine.effect, hall]
  cases cols <;> rfl

/-- `select UPC, Quantity, Price, Name from ItemsInformation` -/
def itemsQuery : Stmt :=
  .select (some [lit "UPC", lit "Quantity", lit "Price", lit "Name"]) itemTable .tt

/-- `select * from UserInformation` -/
def usersQuery : Stmt := .select none userTable .tt

/-- The rows of the items table, as their listing has to show them. -/
def itemRows (db : Db) : List RowText :=
  (visited y itemsInformation itemsQuery db).map (shownColumns
    [textColumn "UPC", textColumn "Quantity", textColumn "Price", ⟨lit "Name", .text, false⟩])

/-- The rows of the users table. -/
def userRows (db : Db) : List RowText :=
  (visited y userInformation usersQuery db).map (shownColumns userInformation.cols)

theorem exec_getAllItems (db : Db) :
    y.engine.exec catalog getAllItemsSql db = ⟨db, itemRows y db, none⟩ :=
  @exec_selectAll y _ itemsInformation _ _
    (show parse (tokenize getAllItemsSql) = some [itemsQuery] by decide +kernel) rfl rfl db

theorem exec_getAllUsers (db : Db) :
    y.engine.exec catalog getAllUsersSql db = ⟨db, userRows y db, none⟩ :=
  @exec_selectAll y _ userInformation _ _
    (show parse (tokenize getAllUsersSql) = some [usersQuery] by decide +kernel) rfl rfl db

/-- **Listings are complete** exactly when every row fits the array of its callback, and
all of them together the `BUFSIZ` bytes the stream is told to use. -/
theorem complete_iff (y : Sys) {w : World} (hfault : y.fault w.tick = none) :
    (Lists (getAllItems y) w (itemRows y w.srv.db) ↔
      RowsFit 5000 (itemRows y w.srv.db) ∧ (rendered (itemRows y w.srv.db)).length ≤ bufsiz) ∧
    (Lists (getAllUsers y) w (userRows y w.srv.db) ↔
      RowsFit 10000 (userRows y w.srv.db) ∧ (rendered (userRows y w.srv.db)).length ≤ bufsiz) := by
  have hitems : shownRows y getAllItemsSql w.srv.db = itemRows y w.srv.db :=
    congrArg Result.rows (exec_getAllItems y _)
  have husers : shownRows y getAllUsersSql w.srv.db = userRows y w.srv.db :=
    congrArg Result.rows (exec_getAllUsers y _)
  constructor
  · rw [← hitems]
    exact lists_iff y hfault (by rw [exec_getAllItems]) (by decide) (by decide) (by decide)
  · rw [← husers]
    exact lists_iff y hfault (by rw [exec_getAllUsers]) (by decide) (by decide) (by decide)

/-- An item without a name. -/
def itemRow (id : Int) : Row := fun c =>
  if c = lit "ID" then .int id
  else if c = lit "UPC" then .text (lit "012345678905")
  else if c = lit "Quantity" then .text (lit "1")
  else if c = lit "Price" then .text (lit "1")
  else .null

/-- Two users and three items. -/
def stockDb : Db :=
  Function.update (usersDb [adminRow, userRow 2 (lit "bob") (md5 (lit "pw")) elvtUsr 1]) itemTable
    ⟨[itemRow 1, itemRow 2, itemRow 3], 3⟩

/-- Users and items are listed, all of them. -/
theorem complete_stock :
    Lists (getAllItems quietSys) (.before initDataRoot stockDb) (itemRows quietSys stockDb) ∧
      Lists (getAllUsers quietSys) (.before initDataRoot stockDb) (userRows quietSys stockDb) := by
  obtain ⟨hitems, husers⟩ := @complete_iff quietSys (.before initDataRoot stockDb) rfl
  exact ⟨hitems.mpr ⟨by decide +kernel, by decide +kernel⟩,
    husers.mpr ⟨by decide +kernel, by decide +kernel⟩⟩

/-! ## A table too large for its listing -/

/-- A database with `n` such items. -/
def itemsDb (n : Nat) : Db := fun t =>
  if t = itemTable then ⟨(List.range n).map fun k : Nat => itemRow k, n⟩ else ⟨[], 0⟩

/-- What every one of them shows. -/
def itemShown : RowText :=
  shownColumns [textColumn "UPC", textColumn "Quantity", textColumn "Price",
    ⟨lit "Name", .text, false⟩] (itemRow 0)

theorem itemRows_itemsDb (n : Nat) : itemRows quietSys (itemsDb n) = List.replicate n itemShown := by
  show (((List.range n).map fun k : Nat => itemRow k).map fun r => _) = _
  rw [List.map_map]
  show ((List.range n).map fun _ => itemShown) = _
  rw [List.map_const', List.length_range]

theorem length_rendered_replicate (n : Nat) (row : RowText) :
    (rendered (List.replicate n row)).length = n * (renderRow row).length := by
  simp [rendered]

/-- Two hundred rows of less than a hundred bytes each are too many. -/
theorem not_complete :
    ¬ ∀ (y : Sys) (w : World), y.fault w.tick = none → RowsFit 5000 (itemRows y w.srv.db) →
      (rendered (itemRows y w.srv.db)).length < 5000000 →
      Lists (getAllItems y) w (itemRows y w.srv.db) := by
  intro h
  have hlen : (renderRow itemShown).length = 73 := by decide +kernel
  have htotal : (rendered (itemRows quietSys (itemsDb 200))).length = 200 * 73 := by
    rw [itemRows_itemsDb, length_rendered_replicate, hlen]
  have hfit : RowsFit 5000 (itemRows quietSys (itemsDb 200)) := by
    rw [itemRows_itemsDb]
    intro row hrow
    rw [List.eq_of_mem_replicate hrow, hlen]
    decide
  have hlists := h quietSys (.before initDataRoot (itemsDb 200)) rfl hfit
    (by rw [show (World.before initDataRoot (itemsDb 200)).srv.db = itemsDb 200 from rfl, htotal]
        decide)
  have hitems : shownRows quietSys getAllItemsSql (itemsDb 200) = itemRows quietSys (itemsDb 200) :=
    congrArg Result.rows (exec_getAllItems quietSys _)
  change Lists _ _ (itemRows quietSys (itemsDb 200)) at hlists
  rw [← hitems] at hlists
  have hle := ((lists_iff quietSys rfl (by rw [exec_getAllItems]) (by decide) (by decide)
    (by decide)).mp hlists).2
  change (rendered (shownRows quietSys getAllItemsSql (itemsDb 200))).length ≤ 8192 at hle
  rw [hitems, htotal] at hle
  exact absurd hle (by decide)

end Thor
