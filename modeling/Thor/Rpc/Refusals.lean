import Thor.Rpc.Replies

/-!
# What a refusal says

As an answer `resp,ok` says that a statement has been run, an answer that begins with
`resp,fail` or `resp,status,fail` says that nothing has happened. A function that returned
`-1` has run no statement, or one that the engine has taken back.

- `Atomic`: a text that changes nothing when it fails.
- `UnchangedOnFailure`: what a function that writes has done when it does not return `0`.
- `Refused`: one of these answers has been sent.
- `refused_unchanged`: a refused command leaves all tables alone.
-/

namespace Thor

open CLib Sql Prog

variable {y : Sys} {w : World}

/-! ## Functions that failed -/

/-- A text that changes nothing when it ends in an error. -/
def Atomic (y : Sys) (sql : Str) : Prop :=
  ∀ db, (y.engine.exec catalog sql db).err ≠ none → (y.engine.exec catalog sql db).db = db

/-- A text that is one statement is atomic. -/
theorem Built.atomic {b : Built} (hq : ∀ f ∈ b.asGiven, QuoteFree f)
    (hn : ∀ i ∈ b.numbers, intLit i = some (.int i)) : Atomic y (b.text y) := by
  intro db herr
  rw [b.exec_eq y hq hn] at herr ⊢
  obtain ⟨msg, hmsg⟩ := Option.ne_none_iff_exists'.mp herr
  exact (Engine.execStmt_error hmsg).1

/-- A function that does not return `0` leaves the database alone. -/
def UnchangedOnFailure (w : World) (o : Outcome World Crash Event Int) : Prop :=
  ∀ r, o.val = .ok r → r ≠ 0 → o.state.srv.db = w.srv.db

theorem unchanged_runStatement {cap : Nat} {s : Str} (hs : Atomic y s) (w : World) :
    UnchangedOnFailure w ((runStatement y cap s).run w) := by
  intro r hval hr
  by_cases hlen : s.length < cap
  · obtain ⟨⟨hzero, -⟩ | ⟨-, hnot⟩, hsrv⟩ := run_runStatement (y := y) (w := w) hlen
    · rw [hzero] at hval
      exact absurd (Except.ok.inj hval).symm hr
    · by_cases hfault : y.fault w.tick = none
      · -- the engine has run the text, and has met an error
        have herr : (y.engine.exec catalog s w.srv.db).err ≠ none :=
          fun herr => hnot ⟨hlen, hfault, herr⟩
        rw [if_pos hfault] at hsrv
        exact (congrArg Server.db hsrv).trans (hs _ herr)
      · rw [if_neg hfault] at hsrv
        exact congrArg Server.db hsrv
  · rw [run_runStatement_overflow hlen] at hval
    cases hval

/-- What stands before the statement leaves the database alone. -/
theorem unchanged_after {α : Type} {m : M α} {f : α → M Int} (hm : Always m DbKept)
    (hf : ∀ a v, (m.run w).val = .ok a → UnchangedOnFailure v ((f a).run v)) :
    UnchangedOnFailure w ((m >>= f).run w) := by
  intro r hval hr
  obtain ⟨a, ha, hrest⟩ := bind_val_ok hval
  have hkept : (m.run w).state.srv.db = w.srv.db := hm w trivial
  rw [run_bind_of_ok ha]
  exact (hf a _ ha r hrest hr).trans hkept

theorem unchanged_mapped (key : Option Str) (cap : Nat) {text : Str → Str}
    {built : MappedKey → Built} (w : World)
    (htext : ∀ k, mappedKey key = some k → text k.column = (built k).text y)
    (hatomic : ∀ k, mappedKey key = some k → Atomic y ((built k).text y)) :
    UnchangedOnFailure w ((match getMapping (findCmd key) with
      | none => pure (-1)
      | some colName => runStatement y cap (text colName) : M Int).run w) := by
  rw [getMapping_findCmd]
  cases h : mappedKey key with
  | none => exact fun _ _ _ => rfl
  | some k =>
    show UnchangedOnFailure w ((runStatement y cap (text k.column)).run w)
    rw [htext k h]
    exact unchanged_runStatement (hatomic k h) w

/-- **A leaf whose function did not return `0`** has changed nothing. -/
theorem DbLeaf.unchanged_call {l : DbLeaf} (hplain : ∀ b ∈ l.built, ∀ f ∈ b.asGiven, QuoteFree f)
    (w : World) : UnchangedOnFailure w ((l.call y).run w) := by
  have hkept := dbKept_reply.session
  have hatomic : ∀ b ∈ l.built, Atomic y (b.text y) :=
    fun b hb => b.atomic (hplain b hb) (l.numbers_built hb)
  -- a listing changes nothing, whatever it returns
  have hlist (hquery : ∀ b ∈ l.built, ∃ cols t cond, b.stmt y = .select cols t cond) :
      ((l.call y).run w).state.srv.db = w.srv.db := by
    rcases l.executes_call y w trivial with h | ⟨s, hs, h⟩
    · exact h
    · rcases DbLeaf.exec_sql hplain hs w.srv.db with hexec | ⟨b, hb, rfl, hexec⟩
      · exact h.trans hexec
      · obtain ⟨cols, t, cond, hstmt⟩ := hquery b hb
        rw [h, hexec, hstmt, Engine.execStmt_select_db]
  cases l with
  | addItem | dltItem | addImage | deleteImage =>
    have hbuilt := hatomic _ rfl
    simp only [Built.text] at hbuilt
    simp only [DbLeaf.call, addItems, deleteItem, Thor.addImage, Thor.deleteImage]
    exact unchanged_runStatement hbuilt w
  | getAllItems | getAllUsers | getAllImages =>
    refine fun _ _ _ => hlist fun b hb => ?_
    cases hb
  | getImage upc =>
    refine fun _ _ _ => hlist fun b hb => ?_
    cases hb
    exact ⟨_, _, _, rfl⟩
  | dltUsr => exact fun _ _ _ => rfl
  | creatUsr name pass mode =>
    refine unchanged_after (hkept.computeHash y pass) fun a v ha => ?_
    have hbuilt := hatomic _ rfl
    simp only [Built.text] at hbuilt
    rw [computeHash_val y ha]
    exact unchanged_runStatement hbuilt v
  | updateItem name key value | updateImage upc key value =>
    simp only [DbLeaf.call, updateItemsInfo, updateItemImage]
    exact unchanged_mapped key _ w (fun _ _ => by rw [Built.text]) fun k hk =>
      hatomic _ (Option.map_eq_some_iff.mpr ⟨k, hk, rfl⟩)
  | updateUsr name key value =>
    refine unchanged_after ?_ fun a v ha =>
      unchanged_mapped key _ v (fun k hk => by rw [hashedValue_val y hk ha]; rfl) fun k hk =>
        hatomic _ (Option.map_eq_some_iff.mpr ⟨k, hk, rfl⟩)
    unfold hashedValue
    split
    · exact hkept.computeHash y value
    · exact hkept.pure _

/-! ## Refusals -/

/-- How an answer begins that says that the command has failed. -/
def failureStarts : List Str := [lit "resp,fail", lit "resp,status,fail"]

/-- Such an answer has been sent. -/
def Refused (o : List Event) : Prop := ∃ start ∈ failureStarts, Answered start o

instance (o : List Event) : Decidable (Refused o) :=
  inferInstanceAs (Decidable (∃ start ∈ failureStarts, Answered start o))

/-- The answer to a call that returned `0` is no refusal. -/
theorem DbLeaf.silent_ok (l : DbLeaf) {start : Str} (h : start ∈ failureStarts) :
    Always l.ok (Silent start) := by
  have hprim := @silent_prim start
  have hstatus : ¬ start <+: sprintf (lit "resp,status,%s") [lit "success"] := by
    rcases List.mem_pair.mp h with rfl | rfl <;> decide
  have hvalue (value : Str) : ¬ start <+: sprintf (lit "resp,ok,0,response,%s") [value] := by
    rcases List.mem_pair.mp h with rfl | rfl <;> simp [lit, sprintf]
  cases l with
  | addItem | dltItem => exact silent_sendResponse hstatus
  | _ => exact hprim.bind (hprim.gets _) fun a => silent_sendResponse (hvalue a.text)

/-- **A refusal** comes behind a call that has returned another number, or behind none. -/
theorem DbLeaf.of_refused {l : DbLeaf} (h : Refused ((l.prog y).run w).out)
    (hset : w.sess.ops l.op = true) : ∃ r, r ≠ 0 ∧ ((l.call y).run w).val = .ok r := by
  obtain ⟨start, hstart, hanswered⟩ := h
  have hprim := @silent_prim start
  by_contra hcon
  refine RelOn.seq (P := fun v => v = w) (Silent.composable start) ?_ (fun _ => ?_) w rfl hanswered
  · refine relOn_tested ?_ ?_
    · rintro v ⟨rfl, -⟩
      have hcall : Silent _ _ ((callPtr l.op l.args (l.call y)).run v).out _ :=
        silent_callPtr ((hprim.db y).call l) v trivial
      cases hval : ((l.call y).run v).val with
      | error e =>
        rw [run_bind_of_error (e := e) (by rw [run_callPtr, if_pos hset, hval])]
        exact hcall
      | ok result =>
        have hzero : result = 0 := by
          by_contra hne
          exact hcon ⟨result, hne, hval⟩
        rw [run_bind_of_ok (a := result) (by rw [run_callPtr, if_pos hset, hval]), if_pos hzero]
        exact (Silent.composable _).trans hcall (l.silent_ok hstart _ trivial)
    · rintro v ⟨rfl, hunset⟩
      exact absurd (hset.symm.trans hunset) (by decide)
  · exact hprim.bind (hprim.cleanup l) fun _ => hprim.freeResponse

/-- **A refused leaf** has changed nothing. -/
theorem DbLeaf.unchanged_of_refused {l : DbLeaf} (hplain : (Request.db l).Plain w.sess.ops)
    (h : Refused ((l.prog y).run w).out) : ((l.prog y).run w).state.srv.db = w.srv.db := by
  cases hset : w.sess.ops l.op with
  | false => exact congrArg Server.db (refused_prog y (r := .db l) rfl w hset).srv
  | true =>
    obtain ⟨r, hr, hval⟩ := DbLeaf.of_refused h hset
    rw [DbLeaf.db_prog hset]
    exact DbLeaf.unchanged_call (hplain hset) w r hval hr

/-! ## Commands -/

/-- **A refusal is true.** When a command on the database is answered with a failure, by
whatever session and in whatever state, all tables are what they were. -/
theorem refused_unchanged {cmd : Str} {l : DbLeaf} (hreq : parseRequest cmd = .db l)
    (hplain : (Request.db l).Plain w.sess.ops) (h : Refused ((processCmd y cmd).run w).out) :
    ((processCmd y cmd).run w).state.srv.db = w.srv.db := by
  obtain ⟨saved, hrun⟩ := processCmd_run y cmd w
  rw [hrun, hreq] at h ⊢
  exact DbLeaf.unchanged_of_refused (w := { w with saved }) hplain h

/-- A user who is there is added again. -/
theorem refused_unchanged_admin :
    let w := World.before { initDataRoot with uid := 1 } (usersDb [adminRow])
    ((processCmd quietSys (lit "db,add,user,admin,x,0,<$#EOT#$>")).run w).state.srv.db =
      w.srv.db := by
  have hreq : parseRequest (lit "db,add,user,admin,x,0,<$#EOT#$>") =
      .db (.creatUsr (some (lit "admin")) (some (lit "x")) (lit "0")) := by decide +kernel
  refine refused_unchanged hreq (fun _ b hb => ?_) (by decide +kernel)
  cases hb
  decide

end Thor
