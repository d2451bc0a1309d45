import Thor.Rpc.Walk
import Thor.Database.Listings
import Thor.Rpc.NodeArgs
import Thor.Rpc.Authority

/-!
# Missing tokens

A handler takes its fields with `strtok` and most of the time uses them unseen. Two
kinds of use can go wrong on the command string: reading through a `NULL` that
`strtok` or `strchr` returned, and the store `command[len - 1]` when `len` is `0`.

- `MissesToken`, `LeavesString`: the two, as seen on a run.
- `Request.supplied`: the fields a request reads through are there, given the
  pointers its session has. `missesToken_iff`: that is all it takes.
- `leavesString_iff`: the store goes wrong on an empty command, and on no other.
-/

namespace Thor

open CLib Sql Prog

/-- A handler reads through a token, or the result of a search, that is not there. (A
child that could not be started is read through a `NULL` too, after its `popen`.) -/
def MissesToken {α : Type} (o : Outcome World Crash Event α) : Prop :=
  o.val = .error .nullDeref ∧ ∀ line, .popen line ∉ o.out

/-- A handler stores to `command[len - 1]` with `len = 0`. -/
def LeavesString {α : Type} (o : Outcome World Crash Event α) : Prop :=
  .execRpcCmd [] ∈ o.out ∨ .openShell (some []) ∈ o.out

/-! ## Programs that miss nothing -/

/-- No run of `m` misses a token. -/
def Supplied {α : Type} (m : M α) : Prop :=
  ∀ w, (m.run w).val = .error .nullDeref → ∃ line, .popen line ∈ (m.run w).out

variable {α β : Type}

theorem Supplied.not_misses {m : M α} (h : Supplied m) (w : World) : ¬ MissesToken (m.run w) :=
  fun ⟨hval, hnone⟩ => (h w hval).elim hnone

theorem Supplied.bind {m : M α} {f : α → M β} (hm : Supplied m) (hf : ∀ a, Supplied (f a)) :
    Supplied (m >>= f) := by
  intro w hval
  cases hrun : (m.run w).val with
  | ok a =>
    rw [run_bind_of_ok hrun] at hval ⊢
    obtain ⟨line, hline⟩ := hf a _ hval
    exact ⟨line, List.mem_append_right _ hline⟩
  | error c =>
    rw [run_bind_of_error hrun] at hval ⊢
    cases hval
    exact hm w hrun

theorem supplied_pure (a : α) : Supplied (pure a : M α) := fun _ h => (nomatch h)

theorem supplied_gets (f : World → α) : Supplied (gets f) := fun _ h => (nomatch h)

theorem supplied_modify (f : World → World) : Supplied (modify f) := fun _ h => (nomatch h)

theorem supplied_emit (o : Event) : Supplied (emit o) := fun _ h => (nomatch h)

theorem supplied_nextTick : Supplied nextTick := fun _ h => (nomatch h)

theorem supplied_lift {x : Except Crash α} (h : x ≠ .error .nullDeref) : Supplied (lift x) := by
  intro w hval
  cases x with
  | ok a => cases hval
  | error c =>
    cases hval
    exact absurd rfl h

theorem supplied_deref (s : Str) : Supplied (deref (some s)) := fun _ h => (nomatch h)

theorem supplied_sprintfInto (cap : Nat) (text : Str) : Supplied (sprintfInto cap text) := by
  intro w hval
  rw [run_sprintfInto] at hval
  dsimp only at hval
  split at hval <;> cases hval

theorem supplied_callPtr {op : Op} {args : List (Option Str)} {body : M α} (h : Supplied body) :
    Supplied (callPtr op args body) := by
  intro w hval
  rw [run_callPtr] at hval ⊢
  split at hval
  · next hset =>
    obtain ⟨line, hline⟩ := h w hval
    rw [if_pos hset]
    exact ⟨line, List.mem_cons_of_mem _ hline⟩
  · cases hval

theorem supplied_sendResponse (fmt : String) (args : List Arg) : Supplied (sendResponse fmt args) :=
  (supplied_sprintfInto _ _).bind fun _ => supplied_callPtr (supplied_emit _)

theorem supplied_storeMessage (fault : Option Fault) : Supplied (storeMessage fault) :=
  fun w h => (nomatch (run_storeMessage fault w).1.symm.trans h)

theorem supplied_sqlite3Exec (y : Sys) (sql : Str) {callback : β → RowText → Except Crash β}
    {data : β} (h : ∀ rows : List RowText, rows.foldlM callback data ≠ .error .nullDeref) :
    Supplied (sqlite3Exec y sql callback data) := by
  refine (supplied_emit _).bind fun _ => supplied_nextTick.bind fun t => ?_
  cases y.fault t with
  | some fault => exact supplied_pure _
  | none =>
    exact (supplied_gets _).bind fun db => (supplied_modify _).bind fun _ =>
      (supplied_lift (h _)).bind fun _ => supplied_pure _

theorem supplied_runStatement (y : Sys) (cap : Nat) (text : Str) :
    Supplied (runStatement y cap text) :=
  (supplied_sprintfInto _ _).bind fun _ =>
    (supplied_sqlite3Exec y _ fun rows h => nomatch (foldlM_ok (fun u _ => u) rows ()).symm.trans h).bind
      fun _ => (supplied_storeMessage _).bind fun _ => supplied_pure _

theorem supplied_mapped (y : Sys) (key : Option Commands) (cap : Nat) (text : Str → Str) :
    Supplied (match getMapping key with
      | none => (pure (-1) : M Int)
      | some colName => runStatement y cap (text colName)) := by
  cases getMapping key with
  | none => exact supplied_pure _
  | some colName => exact supplied_runStatement y _ _

theorem supplied_listInto (y : Sys) (sz : Sizes) (opening sql : Str) :
    Supplied (listInto y sz opening sql) := by
  -- a row without room stops the run, but not for a missing token
  have hrows : ∀ rows : List RowText,
      rows.foldlM (listRow sz.row sz.stream) ⟨[], 0⟩ ≠ .error .nullDeref := by
    intro rows
    by_cases hfit : RowsFit sz.row rows
    · rw [foldlM_listRow _ _ hfit]
      exact nofun
    · rw [foldlM_listRow_overflow _ _ hfit]
      exact nofun
  refine ((supplied_gets _).bind fun _ => (supplied_modify _).bind fun _ =>
    (supplied_emit _).bind fun _ => supplied_pure _).bind fun b => (supplied_modify _).bind fun _ =>
      (supplied_sqlite3Exec y sql hrows).bind fun r => (supplied_storeMessage _).bind fun _ => ?_
  split
  · exact (supplied_sprintfInto _ _).bind fun _ => (supplied_sprintfInto _ _).bind fun _ =>
      (supplied_modify _).bind fun _ => supplied_pure _
  · exact supplied_pure _

theorem supplied_computeHash (y : Sys) (key : Str) : Supplied (computeHash y (some key)) :=
  supplied_callPtr ((supplied_deref key).bind fun _ => supplied_pure _)

theorem supplied_logRpcCommand (y : Sys) (type : LogType) (process command latlong txId : Option Str) :
    Supplied (logRpcCommand y type process command latlong txId) :=
  supplied_nextTick.bind fun _ => (supplied_gets _).bind fun _ => supplied_runStatement y _ _

/-! ## Requests on the database -/

/-- The fields the operation reads through are there. -/
def DbLeaf.supplied : DbLeaf → Bool
  | creatUsr _ pass _ => pass.isSome
  | updateUsr _ key value => findCmd key != some .userpass || value.isSome
  | _ => true

theorem DbLeaf.supplied_call (y : Sys) {l : DbLeaf} (h : l.supplied = true) :
    Supplied (l.call y) := by
  cases l with
  | addItem | dltItem | addImage | deleteImage => exact supplied_runStatement y _ _
  | updateItem | updateImage => exact supplied_mapped y _ _ _
  | creatUsr name pass mode =>
    obtain ⟨p, rfl⟩ := Option.isSome_iff_exists.mp h
    exact (supplied_computeHash y p).bind fun _ => supplied_runStatement y _ _
  | dltUsr => exact supplied_pure _
  | updateUsr name key value =>
    refine Supplied.bind ?_ fun hashed => supplied_mapped y _ 256 fun c =>
      updateUserInfoSql c (fmtS name) hashed
    unfold hashedValue
    split
    · next hkey =>
      have hsome : value.isSome = true := by simpa [DbLeaf.supplied, hkey] using h
      obtain ⟨v, rfl⟩ := Option.isSome_iff_exists.mp hsome
      exact supplied_computeHash y v
    · exact supplied_pure _
  | getImage upc => exact (supplied_sprintfInto _ _).bind fun _ => supplied_listInto y _ _ _
  | getAllItems | getAllUsers | getAllImages => exact supplied_listInto y _ _ _

theorem supplied_replyWith (f : World → Arg) (fmt : String) :
    Supplied (do let a ← gets f; sendResponse fmt [a]) :=
  (supplied_gets _).bind fun _ => supplied_sendResponse _ _

theorem DbLeaf.supplied_ok (l : DbLeaf) : Supplied l.ok := by
  cases l with
  | addItem | dltItem => exact supplied_sendResponse _ _
  | _ => exact supplied_replyWith _ _

theorem DbLeaf.supplied_err (l : DbLeaf) : Supplied l.err := by
  cases l with
  | getAllUsers | getImage | getAllImages => exact supplied_sendResponse _ _
  | _ => exact supplied_replyWith _ _

theorem DbLeaf.supplied_refused (l : DbLeaf) : Supplied l.refused := by
  cases l with
  | updateUsr | updateImage => exact supplied_pure _
  | _ => exact supplied_sendResponse _ _

theorem supplied_freeValue : Supplied freeValue := by
  refine (supplied_gets _).bind fun v => ?_
  cases v with
  | none => exact supplied_modify _
  | some b => exact (supplied_emit _).bind fun _ => supplied_modify _

theorem supplied_freeResponse : Supplied freeResponse := by
  refine (supplied_gets _).bind fun v => ?_
  cases v with
  | none => exact supplied_pure _
  | some b => exact (supplied_emit _).bind fun _ => supplied_modify _

theorem DbLeaf.supplied_cleanup (l : DbLeaf) : Supplied l.cleanup := by
  cases l with
  | addItem | dltItem | updateItem | getAllItems =>
    exact supplied_freeValue.bind fun _ => supplied_modify _
  | getAllUsers | getImage | getAllImages => exact supplied_freeValue
  | _ => exact supplied_pure _

theorem DbLeaf.supplied_prog (y : Sys) {l : DbLeaf} (h : l.supplied = true) : Supplied (l.prog y) := by
  refine Supplied.bind ((supplied_gets _).bind fun set => ?_) fun _ =>
    l.supplied_cleanup.bind fun _ => supplied_freeResponse
  split
  · refine (supplied_callPtr (l.supplied_call y h)).bind fun result => ?_
    split
    · exact l.supplied_ok
    · exact l.supplied_err
  · exact l.supplied_refused

/-! ## Requests -/

/-- The fields a request reads through are there, in a session with the pointers `ops`. -/
def Request.supplied (ops : Op → Bool) : Request → Prop
  | crash => False
  | db leaf => ops leaf.op = true → leaf.supplied = true
  | setLogging level => ops .setMode = true → level.isSome = true
  | superMode command => command.isSome = true
  | _ => True

theorem supplied_controlled {op : Op} {granted : M Unit} (h : Supplied granted) :
    Supplied (controlled op granted) := by
  refine (supplied_gets _).bind fun set => ?_
  split
  · exact h
  · exact supplied_sendResponse _ _

theorem supplied_runProcess (y : Sys) (line : Str) : Supplied (runProcess y line) := by
  refine supplied_nextTick.bind fun t => ?_
  split
  · -- once the child is started, nothing is a missed token
    intro w _
    rw [run_bind_of_run (a := ()) (o := [.popen line]) rfl]
    exact ⟨line, List.mem_append_left _ (List.mem_singleton_self _)⟩
  · exact supplied_sendResponse _ _

theorem supplied_execRpcCmd (y : Sys) (command : Str) : Supplied (execRpcCmd y command) :=
  (supplied_emit _).bind fun _ => (supplied_sprintfInto _ _).bind fun _ => supplied_runProcess y _

theorem supplied_runCliNode (y : Sys) (process : Option Str) (latlong : Str) (txId : Option Str)
    (command : Str) : Supplied (runCliNode y process latlong txId command) := by
  refine (supplied_gets _).bind fun isLogged => ?_
  split
  · exact (supplied_callPtr (supplied_logRpcCommand y _ _ _ _ _)).bind fun _ =>
      supplied_execRpcCmd y command
  · exact supplied_execRpcCmd y command

theorem supplied_list : Supplied list :=
  ((supplied_gets _).bind fun _ => (supplied_modify _).bind fun _ =>
    (supplied_emit _).bind fun _ => supplied_pure _).bind fun _ => (supplied_modify _).bind fun _ =>
      (supplied_gets _).bind fun _ => (supplied_sprintfInto _ _).bind fun _ => supplied_modify _

/-- A list of the peers leaves a value to send. -/
theorem list_value : Triple (fun _ => True) list fun _ _ w => ∃ b, w.sess.value = some b := by
  have hany {α β : Type} {m : M α} {f : α → M β}
      (hf : ∀ a, Triple (fun _ => True) (f a) fun _ _ w => ∃ b, w.sess.value = some b) :
      Triple (fun _ => True) (m >>= f) fun _ _ w => ∃ b, w.sess.value = some b :=
    Triple.bind (Q := fun _ _ _ => True) (fun _ _ _ _ => trivial) fun a _ => hf a
  exact hany fun b => hany fun _ => hany fun _ => hany fun _ =>
    Triple.modify fun _ _ => ⟨_, rfl⟩

theorem supplied_sendPeers : Supplied sendPeers := by
  have hlist : Supplied (callPtr .list [] list) := supplied_callPtr supplied_list
  intro w hval
  unfold sendPeers at hval ⊢
  cases hrun : ((callPtr .list [] list).run w).val with
  | error c =>
    rw [run_bind_of_error hrun] at hval ⊢
    cases hval
    exact hlist w hrun
  | ok u =>
    obtain ⟨b, hb⟩ : ∃ b, ((callPtr .list [] list).run w).state.sess.value = some b := by
      rw [run_callPtr] at hrun ⊢
      split at hrun
      · next hset =>
        rw [if_pos hset]
        exact list_value w trivial u hrun
      · cases hrun
    rw [run_bind_of_ok hrun] at hval ⊢
    rw [run_bind_of_run (run_gets _ _), hb] at hval ⊢
    obtain ⟨line, hline⟩ := ((supplied_sendResponse "resp,ok,0,response,%s" [⟨b.text, some b.id⟩]).bind
      fun _ => supplied_emit (.free b.id)) _ hval
    exact ⟨line, List.mem_append_right _ (List.mem_append_right _ hline)⟩

/-- A request with its fields there misses none. -/
theorem Request.not_misses (y : Sys) {r : Request} {w : World} (h : r.supplied w.sess.ops) :
    ¬ MissesToken ((r.prog y).run w) := by
  cases r with
  | crash => exact absurd h id
  | db leaf =>
    by_cases hset : w.sess.ops leaf.op = true
    · exact (leaf.supplied_prog y (h hset)).not_misses w
    · -- without the pointer the operation is not called
      have hrefused : (guarded leaf.op leaf.args (leaf.call y) leaf.ok leaf.err leaf.refused).run w
          = leaf.refused.run w := by
        rw [guarded, run_tested, if_neg hset]
      show ¬ MissesToken ((guarded _ _ _ _ _ _ >>= _).run w)
      rw [run_bind_congr hrefused]
      exact (leaf.supplied_refused.bind fun _ =>
        leaf.supplied_cleanup.bind fun _ => supplied_freeResponse).not_misses w
  | setLogging level =>
    by_cases hset : w.sess.ops .setMode = true
    · obtain ⟨l, rfl⟩ := Option.isSome_iff_exists.mp (h hset)
      exact (supplied_controlled ((supplied_callPtr ((supplied_deref l).bind fun _ =>
        supplied_modify _)).bind fun _ => supplied_sendResponse _ _)).not_misses w
    · show ¬ MissesToken ((controlled _ _).run w)
      rw [controlled, run_tested, if_neg hset]
      exact (supplied_sendResponse _ _).not_misses w
  | superMode command =>
    obtain ⟨c, rfl⟩ := Option.isSome_iff_exists.mp h
    exact ((supplied_emit _).bind fun _ => (supplied_deref c).bind fun _ =>
      (supplied_sprintfInto _ _).bind fun _ => supplied_runProcess y _).not_misses w
  | bye =>
    exact ((supplied_callPtr ((supplied_modify _).bind fun _ => supplied_emit _)).bind fun _ =>
      supplied_emit _).not_misses w
  | malformed | auth | invalid | underWay => exact (supplied_sendResponse _ _).not_misses w
  | dbInvalid => exact ((supplied_sendResponse _ _).bind fun _ => supplied_freeResponse).not_misses w
  | logCmd process latlong txId command =>
    exact ((supplied_callPtr (supplied_logRpcCommand y _ _ _ _ _)).bind fun _ =>
      supplied_pure _).not_misses w
  | cliNode process latlong txId command => exact (supplied_runCliNode y _ _ _ _).not_misses w
  | getTax => exact (supplied_replyWith _ _).not_misses w
  | getLogging =>
    exact (supplied_controlled ((supplied_callPtr (supplied_gets _)).bind fun _ =>
      supplied_sendResponse _ _)).not_misses w
  | getLogLevels =>
    exact (supplied_controlled ((supplied_callPtr (supplied_pure _)).bind fun _ =>
      supplied_sendResponse _ _)).not_misses w
  | listPeers => exact (supplied_controlled supplied_sendPeers).not_misses w
  | shutdown =>
    refine (supplied_controlled ((supplied_sendResponse _ _).bind fun _ =>
      supplied_callPtr ((supplied_modify _).bind fun _ => (supplied_emit _).bind fun _ => ?_))).not_misses w
    split
    · exact supplied_pure _
    · exact fun _ hval => (nomatch hval)
  | unanswered => exact (supplied_pure _).not_misses w

/-! ## Requests that lack a field -/

theorem misses_bind {m : M α} {f : α → M β} {w : World} (h : MissesToken (m.run w)) :
    MissesToken ((m >>= f).run w) := by
  rw [run_bind_of_error h.1]
  exact ⟨rfl, h.2⟩

theorem misses_callPtr {op : Op} {args : List (Option Str)} {body : M α} {w : World}
    (hset : w.sess.ops op = true) (h : MissesToken (body.run w)) :
    MissesToken ((callPtr op args body).run w) := by
  rw [run_callPtr, if_pos hset]
  refine ⟨h.1, fun line hm => ?_⟩
  rcases List.mem_cons.mp hm with heq | hm
  · cases heq
  · exact h.2 line hm

theorem misses_tested {op : Op} {m m' : M α} {w : World} (hset : w.sess.ops op = true)
    (h : MissesToken (m.run w)) : MissesToken ((do if ← isSet op then m else m' : M α).run w) := by
  rwa [run_tested, if_pos hset]

theorem misses_deref (w : World) : MissesToken ((deref none).run w) := ⟨rfl, fun _ => nofun⟩

theorem misses_computeHash (y : Sys) {w : World} (hset : w.sess.ops .hash = true) :
    MissesToken ((computeHash y none).run w) :=
  misses_callPtr hset (misses_bind (misses_deref w))

theorem DbLeaf.misses_call (y : Sys) {l : DbLeaf} {w : World} (hset : w.sess.ops .hash = true)
    (h : l.supplied = false) : MissesToken ((l.call y).run w) := by
  cases l with
  | creatUsr name pass mode =>
    obtain rfl : pass = none := by simpa [DbLeaf.supplied] using h
    exact misses_bind (misses_computeHash y hset)
  | updateUsr name key value =>
    obtain ⟨hkey, rfl⟩ : findCmd key = some .userpass ∧ value = none := by
      simpa [DbLeaf.supplied] using h
    show MissesToken ((updateUserInfo y name (findCmd key) none).run w)
    unfold updateUserInfo hashedValue
    rw [if_pos hkey]
    exact misses_bind (misses_computeHash y hset)
  | _ => cases h

theorem Request.misses (y : Sys) {r : Request} {w : World} (hbasic : Basic w.sess.ops)
    (h : ¬ r.supplied w.sess.ops) : MissesToken ((r.prog y).run w) := by
  cases r with
  | crash => exact ⟨rfl, fun _ => nofun⟩
  | db leaf =>
    obtain ⟨hset, hleaf⟩ := Classical.not_imp.mp h
    exact misses_bind (misses_tested hset (misses_bind (misses_callPtr hset
      (leaf.misses_call y hbasic.hash (by simpa using hleaf)))))
  | setLogging level =>
    obtain ⟨hset, hlevel⟩ := Classical.not_imp.mp h
    obtain rfl : level = none := by simpa using hlevel
    exact misses_tested hset (misses_bind (misses_callPtr hset (misses_bind (misses_deref w))))
  | superMode command =>
    obtain rfl : command = none := by simpa [Request.supplied] using h
    show MissesToken ((openShell y none).run w)
    unfold openShell
    rw [run_bind_of_run (a := ()) (o := [.openShell none]) rfl]
    refine ⟨rfl, fun line hm => ?_⟩
    rcases List.mem_cons.mp hm with heq | hm
    · cases heq
    · cases hm
  | _ => exact absurd trivial h

theorem Request.missesToken_iff (y : Sys) {r : Request} {w : World} (hbasic : Basic w.sess.ops) :
    MissesToken ((r.prog y).run w) ↔ ¬ r.supplied w.sess.ops :=
  ⟨fun h hs => r.not_misses y hs h, r.misses y hbasic⟩

/-! ## Empty commands -/

/-- A command is run only for the request that names it. -/
def Orders (r : Request) (_ : World) (o : List Event) (_ : World) : Prop :=
  (∀ c, .execRpcCmd c ∈ o → ∃ p l t, r = .cliNode p l t c) ∧
    ∀ c, .openShell c ∈ o → r = .superMode c

theorem Orders.composable (r : Request) : Composable (Orders r) where
  refl _ := ⟨fun _ => nofun, fun _ => nofun⟩
  trans h h' :=
    ⟨fun c hm => (List.mem_append.mp hm).elim (h.1 c) (h'.1 c),
      fun c hm => (List.mem_append.mp hm).elim (h.2 c) (h'.2 c)⟩

theorem orders_emit {r : Request} {o : Event} (hexec : ∀ c, o ≠ .execRpcCmd c)
    (hshell : ∀ c, o ≠ .openShell c) : Always (emit o) (Orders r) := fun _ _ =>
  ⟨fun c hm => absurd (List.mem_singleton.mp hm).symm (hexec c),
    fun c hm => absurd (List.mem_singleton.mp hm).symm (hshell c)⟩

theorem orders_bind {r : Request} {m : M α} {f : α → M β} (hm : Always m (Orders r))
    (hf : ∀ a, Always (f a) (Orders r)) : Always (m >>= f) (Orders r) :=
  RelOn.seq (Orders.composable r) hm hf

theorem orders_modify {r : Request} (f : World → World) : Always (modify f) (Orders r) :=
  fun w _ => (Orders.composable r).refl w

theorem orders_callPtr {r : Request} {op : Op} {args : List (Option Str)} {body : M α}
    (h : Always body (Orders r)) : Always (callPtr op args body) (Orders r) :=
  always_callPtr (Orders.composable r) (orders_emit (fun _ => nofun) fun _ => nofun) h

theorem orders_cmd (r : Request) : CmdJudgment fun m => Always m (Orders r) where
  pure _ := RelOn.pure (Orders.composable r)
  bind := orders_bind
  gets _ := RelOn.gets (Orders.composable r)
  fail _ := RelOn.fail (Orders.composable r)
  tick w _ := (Orders.composable r).refl w
  alloc _ := orders_bind (RelOn.gets (Orders.composable r)) fun _ =>
    orders_bind (orders_modify _) fun _ =>
      orders_bind (orders_emit (fun _ => nofun) fun _ => nofun) fun _ =>
        RelOn.pure (Orders.composable r)
  setValue _ := orders_modify _
  setResponse _ := orders_modify _
  setDb _ := orders_modify _
  setLevel _ := orders_modify _
  emit {o} h _ := orders_emit (by rintro c rfl; cases h) (by rintro c rfl; cases h)
  call _ := orders_callPtr

/-- The two requests that run a command. -/
theorem Request.orders (y : Sys) (r : Request) : Always (r.prog y) (Orders r) := by
  refine (orders_cmd r).prog y (fun _ => ?_) (fun _ => ?_) (fun p l t c hr w _ => ?_)
    fun c hr w _ => ?_
  · exact orders_bind (orders_callPtr (orders_bind (orders_modify _) fun _ =>
      orders_emit (fun _ => nofun) fun _ => nofun)) fun _ =>
        orders_emit (fun _ => nofun) fun _ => nofun
  · refine orders_bind (orders_modify _) fun _ =>
      orders_bind (orders_emit (fun _ => nofun) fun _ => nofun) fun _ => ?_
    split
    · exact RelOn.pure (Orders.composable r)
    · exact RelOn.fail (Orders.composable r)
  · refine ⟨fun c' hm => ?_, fun c' hm => (nomatch List.mem_singleton.mp hm)⟩
    cases List.mem_singleton.mp hm
    exact ⟨p, l, t, hr⟩
  · refine ⟨fun c' hm => (nomatch List.mem_singleton.mp hm), fun c' hm => ?_⟩
    cases List.mem_singleton.mp hm
    exact hr

theorem execRpcCmd_enters (y : Sys) (command : Str) (w : World) :
    .execRpcCmd command ∈ ((execRpcCmd y command).run w).out := by
  unfold execRpcCmd
  rw [run_bind_of_run (a := ()) (o := [.execRpcCmd command]) rfl]
  exact List.mem_append_left _ (List.mem_singleton_self _)

/-- The entry `cli-node` makes in the log before it runs a command overflows its array. -/
def LogOverflows (y : Sys) (w : World) (process : Option Str) (latlong : Str) (txId : Option Str)
    (command : Str) : Prop :=
  w.sess.isLogged ≠ 0 ∧
    8000 ≤ (logSql y w .auto process (some command) (some latlong) txId).length

theorem runCliNode_enters_iff (y : Sys) {w : World} (hset : w.sess.ops .logCmd = true)
    (process : Option Str) (latlong : Str) (txId : Option Str) (command : Str) :
    .execRpcCmd command ∈ ((runCliNode y process latlong txId command).run w).out ↔
      ¬ LogOverflows y w process latlong txId command := by
  unfold runCliNode LogOverflows
  rw [run_bind_of_run (run_gets _ _), List.nil_append]
  dsimp only
  by_cases hlogged : w.sess.isLogged = 0
  · simp only [hlogged, ne_eq, not_true_eq_false, if_false, false_and, not_false_eq_true, iff_true]
    exact execRpcCmd_enters y command w
  · simp only [hlogged, ne_eq, not_false_eq_true, if_true, true_and, not_le]
    have hlog := logRpcCommand_returns y .auto process (some command) (some latlong) txId w
    have hcall := run_callPtr .logCmd [process, some command, some latlong, txId]
      (logRpcCommand y .auto process (some command) (some latlong) txId) w
    rw [if_pos hset] at hcall
    -- the entry itself runs no command
    have hquiet := ((orders_cmd .malformed).prim.db y).logRpcCommand .auto process (some command)
      (some latlong) txId w trivial
    generalize logRpcCommand y .auto process (some command) (some latlong) txId = log at *
    split at hlog
    · next hlen =>
      obtain ⟨r, hval, -⟩ := hlog
      rw [run_bind_of_ok (by rw [hcall]; exact hval)]
      exact ⟨fun _ => hlen, fun _ => List.mem_append_right _ (execRpcCmd_enters y command _)⟩
    · next hlen =>
      rw [run_bind_of_error (by rw [hcall]; exact hlog), hcall]
      refine ⟨fun hm => ?_, fun h => absurd h hlen⟩
      rcases List.mem_cons.mp hm with heq | hm
      · cases heq
      · obtain ⟨p, l, t, hr⟩ := hquiet.1 command hm
        cases hr

/-- An empty command is what makes a handler leave its string. -/
theorem Request.leavesString_iff (y : Sys) {r : Request} {w : World}
    (hset : w.sess.ops .logCmd = true) (hshell : r ≠ .superMode (some [])) :
    LeavesString ((r.prog y).run w) ↔
      ∃ p l t, r = .cliNode p l t [] ∧ ¬ LogOverflows y w p l t [] := by
  have horders := r.orders y w trivial
  constructor
  · rintro (hm | hm)
    · obtain ⟨p, l, t, rfl⟩ := horders.1 [] hm
      exact ⟨p, l, t, rfl, (runCliNode_enters_iff y hset p l t []).mp hm⟩
    · exact absurd (horders.2 _ hm) hshell
  · rintro ⟨p, l, t, rfl, hlog⟩
    exact .inl ((runCliNode_enters_iff y hset p l t []).mpr hlog)

/-! ## Commands -/

theorem field_ne_nil {cmd s : Str} {n : Nat} (h : field cmd n = some s) : s ≠ [] :=
  (mem_fields (List.mem_of_getElem? h)).1

/-- The command of `super-mode` is a token. -/
theorem parseRequest_ne_superMode_nil (cmd : Str) : parseRequest cmd ≠ .superMode (some []) := by
  intro h
  have hread := h ▸ parseRequest_readFrom cmd
  exact field_ne_nil hread.symm rfl

/-- No token that is missing is used, and nothing outside the command string. -/
def Unharmed (y : Sys) (cmd : Str) (w : World) : Prop :=
  ¬ MissesToken ((processCmd y cmd).run w) ∧ ¬ LeavesString ((processCmd y cmd).run w)

/-- **Commands that harm nothing** are those that have the fields their handlers read
through, and no empty command for `lightning-cli` (unless the entry for the log stops
the process before that). -/
theorem unharmed_iff (y : Sys) {role : Int} {uid : Nat} {s : Session} {w : World} (cmd : Str)
    (hmk : mknod role uid = some s) (hops : w.sess.ops = s.ops) :
    Unharmed y cmd w ↔ (parseRequest cmd).supplied s.ops ∧
      ∀ p l t, parseRequest cmd = .cliNode p l t [] → LogOverflows y w p l t [] := by
  obtain ⟨saved, hrun⟩ := processCmd_run y cmd w
  have hbasic : Basic w.sess.ops := hops ▸ mknod_basic hmk
  have hmisses := @Request.missesToken_iff y (parseRequest cmd) { w with saved } hbasic
  have hleaves := @Request.leavesString_iff y (parseRequest cmd) { w with saved } hbasic.logCmd
    (parseRequest_ne_superMode_nil cmd)
  unfold Unharmed
  rw [hrun, hmisses, hleaves, not_not, ← hops]
  refine and_congr_right fun _ => ⟨fun h p l t hr => ?_, fun h ⟨p, l, t, hr, hlog⟩ => ?_⟩
  · by_contra hlog
    exact h ⟨p, l, t, hr, hlog⟩
  · exact hlog (h p l t hr)

/-- A user who is added with all three fields harms nothing. -/
theorem unharmed_add :
    Unharmed quietSys (lit "db,add,user,bob,pw,1000,<$#EOT#$>")
      (.before { initDataRoot with uid := 1 } (usersDb [])) := by
  have hreq : parseRequest (lit "db,add,user,bob,pw,1000,<$#EOT#$>") =
      .db (.creatUsr (some (lit "bob")) (some (lit "pw")) (lit "1000")) := by decide +kernel
  refine (unharmed_iff quietSys _ (show mknod rootUsr 0 = some _ from rfl) rfl).mpr ?_
  rw [hreq]
  exact ⟨fun _ => rfl, fun _ _ _ => nofun⟩

/-- A position without `_` is fatal. -/
theorem not_unharmed :
    ¬ ∀ (y : Sys) (role : Int) (uid : Nat) (s : Session) (w : World) (cmd : Str),
      mknod role uid = some s → w.sess.ops = s.ops → (∀ c ∈ cmd, c ≠ '\x00') →
      Unharmed y cmd w := by
  intro h
  have hun := h quietSys dflUsr 0 _ (.before { initDataDflt with uid := 1 } (usersDb []))
    (lit "log-cmd,pay,here,7,paid,<$#EOT#$>") rfl rfl (by decide)
  have hreq : parseRequest (lit "log-cmd,pay,here,7,paid,<$#EOT#$>") = .crash := by decide +kernel
  obtain ⟨saved, hrun⟩ := processCmd_run quietSys (lit "log-cmd,pay,here,7,paid,<$#EOT#$>")
    (.before { initDataDflt with uid := 1 } (usersDb []))
  rw [hreq] at hrun
  refine hun.1 ⟨?_, fun line => ?_⟩
  · rw [hrun]
    rfl
  · rw [hrun]
    exact List.not_mem_nil

end Thor
