import Thor.Database.Lengths
import Thor.Database.Updates
import Thor.Rpc.Texts

/-!
# What an answer says

An answer `resp,ok,...` to a request on the database says that the function behind it has
returned `0`, and a function that writes returns `0` when its statement has been run
without an error.

- `Answered`: a payload that begins so has been sent.
- `DbLeaf.of_answered`: an answer `resp,ok` comes behind a call that returned `0`.
- `DbLeaf.of_call_zero`: what such a call has done to the database.
-/

namespace Thor

open CLib Sql Prog

/-! ## Payloads -/

/-- The payloads sent. -/
def sent (o : List Event) : List Str :=
  o.filterMap fun
    | .send payload _ => some payload
    | _ => none

/-- A payload that begins with `start` has been sent. -/
def Answered (start : Str) (o : List Event) : Prop := ∃ p ∈ sent o, start <+: p

instance (start : Str) (o : List Event) : Decidable (Answered start o) :=
  inferInstanceAs (Decidable (∃ p ∈ sent o, start <+: p))

theorem sent_append (o o' : List Event) : sent (o ++ o') = sent o ++ sent o' :=
  List.filterMap_append

/-- No payload begins with `start`. -/
def Silent (start : Str) (_ : World) (o : List Event) (_ : World) : Prop := ¬ Answered start o

theorem silent_of_mute {start : Str} {w w' : World} {o : List Event} (h : sent o = []) :
    Silent start w o w' := by
  rintro ⟨p, hp, -⟩
  rw [h] at hp
  cases hp

theorem Silent.composable (start : Str) : Composable (Silent start) where
  refl w := @silent_of_mute start w w [] rfl
  trans {_ o _ o' _} h h' := by
    rintro ⟨p, hp, hstart⟩
    rw [sent_append, List.mem_append] at hp
    rcases hp with hp | hp
    · exact h ⟨p, hp, hstart⟩
    · exact h' ⟨p, hp, hstart⟩

section Silence

variable {start : Str}

theorem silent_callPtr {α : Type} {op : Op} {args : List (Option Str)} {body : M α}
    (h : Always body (Silent start)) : Always (callPtr op args body) (Silent start) :=
  always_callPtr (Silent.composable start) (fun _ _ => silent_of_mute rfl) h

theorem silent_prim : PrimJudgment fun m => Always m (Silent start) where
  pure _ := RelOn.pure (Silent.composable start)
  bind hm hf := RelOn.seq (Silent.composable start) hm hf
  gets _ := RelOn.gets (Silent.composable start)
  fail _ := RelOn.fail (Silent.composable start)
  tick _ _ := silent_of_mute rfl
  emitExec _ _ _ := silent_of_mute rfl
  setDb _ _ _ := silent_of_mute rfl
  alloc _ _ _ := silent_of_mute rfl
  emitFree _ _ _ := silent_of_mute rfl
  setValue _ _ _ := silent_of_mute rfl
  setResponse _ _ _ := silent_of_mute rfl
  callHash := silent_callPtr

/-- A payload that begins otherwise. -/
theorem silent_sendResponse {fmt : String} {args : List Arg}
    (h : ¬ start <+: sprintf (lit fmt) (args.map Arg.text)) :
    Always (sendResponse fmt args) (Silent start) := by
  intro w _
  unfold sendResponse
  rw [run_bind, run_sprintfInto]
  split
  · next payload hval =>
    have hpayload : payload = sprintf (lit fmt) (args.map Arg.text) := by
      split at hval <;> cases hval
      rfl
    refine silent_callPtr (fun w _ => ?_) w trivial
    rintro ⟨p, hp, hstart⟩
    rw [List.mem_singleton.mp hp, hpayload] at hstart
    exact h hstart
  · exact silent_of_mute rfl

/-- An answer to a call that failed is no `resp,ok`. -/
theorem DbLeaf.silent_err (l : DbLeaf) : Always l.err (Silent (lit "resp,ok")) := by
  have hprim := @silent_prim (lit "resp,ok")
  cases l with
  | addItem | dltItem =>
    exact hprim.bind (hprim.gets _) fun a => silent_sendResponse (by simp [lit, sprintf])
  | getAllUsers | getImage | getAllImages => exact silent_sendResponse (by simp [lit, sprintf, txt])
  | _ => exact hprim.bind (hprim.gets _) fun a => silent_sendResponse (by simp [lit, sprintf])

theorem DbLeaf.silent_refused (l : DbLeaf) : Always l.refused (Silent (lit "resp,ok")) := by
  cases l with
  | updateUsr | updateImage => exact silent_prim.pure _
  | _ => exact silent_sendResponse (by simp [lit, sprintf, txt])

end Silence

/-! ## Answers to requests on the database -/

variable {y : Sys} {w : World}

/-- **An answer `resp,ok`** comes behind a call that returned `0`. -/
theorem DbLeaf.of_answered {l : DbLeaf} (h : Answered (lit "resp,ok") ((l.prog y).run w).out) :
    w.sess.ops l.op = true ∧ ((l.call y).run w).val = .ok 0 := by
  have hprim := @silent_prim (lit "resp,ok")
  by_contra hcon
  refine RelOn.seq (P := fun v => v = w) (Silent.composable (lit "resp,ok")) ?_ (fun _ => ?_) w rfl h
  · refine relOn_tested ?_ ?_
    · -- the call has failed, or has not returned
      rintro v ⟨rfl, hset⟩
      have hne : ((l.call y).run v).val ≠ .ok 0 := fun hval => hcon ⟨hset, hval⟩
      have hcall : Silent _ _ ((callPtr l.op l.args (l.call y)).run v).out _ :=
        silent_callPtr ((hprim.db y).call l) v trivial
      cases hval : ((l.call y).run v).val with
      | error e =>
        rw [run_bind_of_error (e := e) (by rw [run_callPtr, if_pos hset, hval])]
        exact hcall
      | ok result =>
        rw [run_bind_of_ok (a := result) (by rw [run_callPtr, if_pos hset, hval]),
          if_neg fun hzero : result = 0 => hne (hzero ▸ hval)]
        exact (Silent.composable _).trans hcall (l.silent_err _ trivial)
    · exact (l.silent_refused).weaken fun _ _ => trivial
  · exact hprim.bind (hprim.cleanup l) fun _ => hprim.freeResponse

/-- The rest of a leaf leaves the database as its function has left it. -/
theorem DbLeaf.db_prog {l : DbLeaf} (hset : w.sess.ops l.op = true) :
    ((l.prog y).run w).state.srv.db = ((l.call y).run w).state.srv.db := by
  have hkept := dbKept_reply
  have hcall : ((callPtr l.op l.args (l.call y)).run w).state = ((l.call y).run w).state := by
    rw [run_callPtr, if_pos hset]
  have hguarded : ((guarded l.op l.args (l.call y) l.ok l.err l.refused).run w).state.srv.db
      = ((l.call y).run w).state.srv.db := by
    unfold guarded
    rw [run_tested, if_pos hset, ← hcall]
    cases hval : ((callPtr l.op l.args (l.call y)).run w).val with
    | error e => rw [run_bind_of_error hval]
    | ok result =>
      rw [run_bind_of_ok hval]
      exact hkept.answer l result _ trivial
  have hrest : Always (do l.cleanup; freeResponse) DbKept :=
    hkept.bind (hkept.session.cleanup l) fun _ => hkept.session.freeResponse
  unfold DbLeaf.prog
  cases hval : ((guarded l.op l.args (l.call y) l.ok l.err l.refused).run w).val with
  | error e => rw [run_bind_of_error hval, hguarded]
  | ok u =>
    rw [run_bind_of_ok hval, ← hguarded]
    exact hrest _ trivial

/-! ## Functions that returned `0` -/

/-- A function that returns `0` has run one of the texts without an error. -/
def Performs (y : Sys) (sql : Option Str) (w : World) (o : Outcome World Crash Event Int) : Prop :=
  o.val = .ok 0 → ∃ s ∈ sql, (y.engine.exec catalog s w.srv.db).err = none ∧
    o.state.srv.db = (y.engine.exec catalog s w.srv.db).db

theorem performs_runStatement (cap : Nat) (s : Str) (w : World) :
    Performs y (some s) w ((runStatement y cap s).run w) := by
  intro hval
  by_cases hlen : s.length < cap
  · obtain ⟨⟨-, -, hfault, herr⟩ | ⟨hneg, -⟩, hsrv⟩ := run_runStatement (y := y) (w := w) hlen
    · rw [if_pos hfault] at hsrv
      exact ⟨s, rfl, herr, congrArg Server.db hsrv⟩
    · cases hneg.symm.trans hval
  · rw [run_runStatement_overflow hlen] at hval
    cases hval

theorem performs_mapped (key : Option Str) (cap : Nat) {text : Str → Str}
    {built : MappedKey → Built} (w : World)
    (htext : ∀ k, mappedKey key = some k → text k.column = (built k).text y) :
    Performs y (((mappedKey key).map built).map (Built.text y)) w ((match getMapping (findCmd key) with
      | none => pure (-1)
      | some colName => runStatement y cap (text colName) : M Int).run w) := by
  rw [getMapping_findCmd]
  cases h : mappedKey key with
  | none => exact fun hval => nomatch hval
  | some k =>
    show Performs y (some ((built k).text y)) w ((runStatement y cap (text k.column)).run w)
    rw [htext k h]
    exact performs_runStatement _ _ _

/-- What stands before the execution leaves the database alone. -/
theorem performs_after {α : Type} {m : M α} {f : α → M Int} {sql : Option Str}
    (hm : Always m DbKept)
    (hf : ∀ a v, (m.run w).val = .ok a → Performs y sql v ((f a).run v)) :
    Performs y sql w ((m >>= f).run w) := by
  intro hval
  obtain ⟨a, ha, hrest⟩ := bind_val_ok hval
  have hkept : (m.run w).state.srv.db = w.srv.db := hm w trivial
  rw [run_bind_of_ok ha]
  have hstep := hf a (m.run w).state ha hrest
  rwa [hkept] at hstep

/-- **A leaf whose function has returned `0`** has run its text without an error. -/
theorem DbLeaf.of_call_zero {l : DbLeaf} (hl : l.lists = false) (hop : l.op ≠ .dltUsr) (w : World) :
    Performs y (l.built.map (Built.text y)) w ((l.call y).run w) := by
  have hkept := dbKept_reply.session
  cases l with
  | addItem | dltItem | addImage | deleteImage =>
    simp only [DbLeaf.call, addItems, deleteItem, Thor.addImage, Thor.deleteImage, DbLeaf.built,
      Option.map_some, Built.text]
    exact performs_runStatement _ _ _
  | getAllItems | getAllUsers | getAllImages | getImage => cases hl
  | dltUsr => exact absurd rfl hop
  | creatUsr name pass mode =>
    refine performs_after (hkept.computeHash y pass) fun a v ha => ?_
    rw [computeHash_val y ha]
    simp only [DbLeaf.built, Option.map_some, Built.text]
    exact performs_runStatement _ _ _
  | updateItem name key value | updateImage upc key value =>
    simp only [DbLeaf.call, updateItemsInfo, updateItemImage, DbLeaf.built]
    exact performs_mapped key _ _ fun _ _ => by rw [Built.text]
  | updateUsr name key value =>
    refine performs_after ?_ fun a v ha =>
      performs_mapped key _ _ fun k hk => by rw [hashedValue_val y hk ha]; rfl
    unfold hashedValue
    split
    · exact hkept.computeHash y value
    · exact hkept.pure _

/-! ## Functions that are granted -/

theorem db_runStatement {cap : Nat} {text : Str} (hlen : text.length < cap)
    (hfault : y.fault w.tick = none) :
    ((runStatement y cap text).run w).state.srv.db = (y.engine.exec catalog text w.srv.db).db := by
  have hsrv := congrArg Server.db (run_runStatement (y := y) (w := w) hlen).2
  rwa [if_pos hfault] at hsrv

theorem db_mapped {key : Option Str} {k : MappedKey} {cap : Nat} {text : Str → Str} {b : Built}
    (hk : mappedKey key = some k) (htext : text k.column = b.text y) (hlen : (b.text y).length < cap)
    (hfault : y.fault w.tick = none) :
    ((match getMapping (findCmd key) with
      | none => pure (-1)
      | some colName => runStatement y cap (text colName) : M Int).run w).state.srv.db
        = (y.engine.exec catalog (b.text y) w.srv.db).db := by
  rw [getMapping_findCmd, hk]
  show ((runStatement y cap (text k.column)).run w).state.srv.db = _
  rw [htext]
  exact db_runStatement hlen hfault

/-- The value `__update_user_info` stores, computed. -/
theorem run_hashedValue_mapped {key value : Option Str} {k : MappedKey} (hk : mappedKey key = some k)
    (hhash : w.sess.ops .hash = true) (hvalue : value ≠ none) :
    ∃ o, (hashedValue y (findCmd key) value).run w = ⟨.ok (storedValue y k (fmtS value)), w, o⟩ := by
  obtain ⟨s, rfl⟩ := Option.ne_none_iff_exists'.mp hvalue
  unfold hashedValue storedValue
  rw [findCmd_of_mappedKey hk]
  by_cases hpass : k.1 = .userpass
  · rw [if_pos (congrArg some hpass), if_pos hpass]
    exact ⟨_, run_computeHash y hhash s⟩
  · rw [if_neg fun h => hpass (Option.some.inj h), if_neg hpass]
    exact ⟨[], rfl⟩

/-- The function of a leaf executes the text built. -/
theorem DbLeaf.db_call {l : DbLeaf} {b : Built} (hl : l.lists = false) (hb : b ∈ l.built)
    (hhash : w.sess.ops .hash = true) (hargs : none ∉ l.args) (hlen : (b.text y).length < b.cap)
    (hfault : y.fault w.tick = none) :
    ((l.call y).run w).state.srv.db = (y.engine.exec catalog (b.text y) w.srv.db).db := by
  cases l with
  | addItem | dltItem | addImage | deleteImage =>
    cases hb
    simp only [DbLeaf.call, addItems, deleteItem, Thor.addImage, Thor.deleteImage, Built.text,
      Built.cap] at hlen ⊢
    exact db_runStatement hlen hfault
  | getAllItems | getAllUsers | getAllImages | getImage => cases hl
  | dltUsr => cases hb
  | creatUsr name pass mode =>
    cases hb
    obtain ⟨s, rfl⟩ : ∃ s, pass = some s :=
      Option.ne_none_iff_exists'.mp fun h => hargs (by simp [DbLeaf.args, h])
    show ((createUsrTable y name (some s) (atoi mode)).run w).state.srv.db = _
    unfold createUsrTable
    rw [run_bind_of_run (run_computeHash y hhash s)]
    simp only [Built.text, Built.cap, fmtS_some] at hlen ⊢
    exact db_runStatement hlen hfault
  | updateItem name key value | updateImage name key value =>
    obtain ⟨k, hk, rfl⟩ := Option.map_eq_some_iff.mp hb
    exact db_mapped hk rfl hlen hfault
  | updateUsr name key value =>
    obtain ⟨k, hk, rfl⟩ := Option.map_eq_some_iff.mp hb
    have hgiven : value ≠ none := fun h => hargs (by simp [DbLeaf.args, h])
    obtain ⟨o, ho⟩ := run_hashedValue_mapped hk hhash hgiven
    show ((updateUserInfo y name (findCmd key) value).run w).state.srv.db = _
    unfold updateUserInfo
    rw [run_bind_of_run ho]
    exact db_mapped hk rfl hlen hfault

/-- **A plain leaf that is granted**, with room for its text, executes its statement. -/
theorem DbLeaf.runs {l : DbLeaf} {b : Built} (hl : l.lists = false) (hb : b ∈ l.built)
    (hplain : ∀ f ∈ b.asGiven, QuoteFree f) (hset : w.sess.ops l.op = true)
    (hhash : w.sess.ops .hash = true) (hargs : none ∉ l.args) (hlen : (b.text y).length < b.cap)
    (hfault : y.fault w.tick = none) :
    ((l.prog y).run w).state.srv.db = (y.engine.execStmt catalog (b.stmt y) w.srv.db).db := by
  rw [DbLeaf.db_prog hset, ← b.exec_eq y hplain (l.numbers_built hb)]
  exact DbLeaf.db_call hl hb hhash hargs hlen hfault

/-- **A plain leaf that is answered `resp,ok`** has run its statement without an error. -/
theorem DbLeaf.of_ok {l : DbLeaf} (hl : l.lists = false) (hop : l.op ≠ .dltUsr)
    (hplain : ∀ b ∈ l.built, ∀ f ∈ b.asGiven, QuoteFree f)
    (h : Answered (lit "resp,ok") ((l.prog y).run w).out) :
    ∃ b ∈ l.built, (y.engine.execStmt catalog (b.stmt y) w.srv.db).err = none ∧
      ((l.prog y).run w).state.srv.db = (y.engine.execStmt catalog (b.stmt y) w.srv.db).db := by
  obtain ⟨hset, hval⟩ := DbLeaf.of_answered h
  obtain ⟨s, hs, herr, hdb⟩ := DbLeaf.of_call_zero hl hop w hval
  obtain ⟨b, hb, rfl⟩ := Option.map_eq_some_iff.mp hs
  have hexec := b.exec_eq y (hplain b hb) (l.numbers_built hb) w.srv.db
  rw [hexec] at herr hdb
  exact ⟨b, hb, herr, (DbLeaf.db_prog hset).trans hdb⟩

end Thor
