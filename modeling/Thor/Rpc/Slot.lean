import Thor.CLib.Alloc
import Thor.Database.Walk

/-!
# The result slot over a session's life

The handlers hand results and messages to each other through two pointers of the
session. This module follows the buffers behind them.

- `Keeps`: a run keeps the discipline of allocations, with the two pointers as the
  slots that own the live buffers. `Steady` and `Still` say besides that the first
  pointer, or both, stay as they are.
- `keeps_prog`: every request keeps it, but a granted `list-peers`.
- `clean_prog`: the requests that leave both pointers `NULL`.
- `slot_discipline`: what follows for the commands of a session, one after another.
-/

namespace Thor

open CLib Sql Prog

/-! ## Buffers of the slot -/

/-- What an event does to the buffers of the slot. -/
def Event.heapOp : Event → Option (HeapOp Nat)
  | alloc b => some (.alloc b)
  | free b => some (.free b)
  | send _ bufs => some (.use bufs)
  | _ => none

def heapOps (o : List Event) : List (HeapOp Nat) := o.filterMap Event.heapOp

@[simp] theorem heapOps_nil : heapOps [] = [] := rfl

@[simp] theorem heapOps_append (o o' : List Event) :
    heapOps (o ++ o') = heapOps o ++ heapOps o' := List.filterMap_append

/-- The buffers the pointers of the slot lead to. -/
def Session.slots (s : Session) : List Nat := (s.value.toList ++ s.response.toList).map Buf.id

/-- The slot's pointers own the live buffers, after the events `o`. -/
def World.Owns (w : World) (o : List (HeapOp Nat)) : Prop :=
  CLib.Owns (w.nextBuf ≤ ·) w.sess.slots o

/-- A run from `w` to `w'` keeps the buffers in order, whatever was before. -/
def Keeps (w : World) (o : List Event) (w' : World) : Prop :=
  ∀ o₀, w.Owns o₀ → w'.Owns (o₀ ++ heapOps o)

/-- Besides, the pointer to the result stays. -/
structure Steady (w : World) (o : List Event) (w' : World) : Prop where
  keeps : Keeps w o w'
  value : w'.sess.value = w.sess.value

/-- Besides, the pointer to the message stays. -/
structure Still (w : World) (o : List Event) (w' : World) : Prop extends Steady w o w' where
  response : w'.sess.response = w.sess.response

theorem Keeps.composable : Composable Keeps where
  refl w o₀ h := by simpa using h
  trans h h' o₀ h₀ := by
    rw [heapOps_append, ← List.append_assoc]
    exact h' _ (h _ h₀)

theorem Steady.composable : Composable Steady where
  refl w := ⟨Keeps.composable.refl w, rfl⟩
  trans h h' := ⟨Keeps.composable.trans h.keeps h'.keeps, h'.value.trans h.value⟩

theorem Still.composable : Composable Still where
  refl w := ⟨Steady.composable.refl w, rfl⟩
  trans h h' := ⟨Steady.composable.trans h.toSteady h'.toSteady, h'.response.trans h.response⟩

variable {α β : Type}

theorem Always.steady {m : M α} (h : Always m Still) : Always m Steady :=
  fun w hw => (h w hw).toSteady

theorem Always.keeps {m : M α} (h : Always m Steady) : Always m Keeps :=
  fun w hw => (h w hw).keeps

/-! ## Runs that leave both pointers -/

theorem still_bind {m : M α} {f : α → M β} (hm : Always m Still) (hf : ∀ a, Always (f a) Still) :
    Always (m >>= f) Still := RelOn.seq Still.composable hm hf

theorem still_of_frame {m : M α} (hout : ∀ w, heapOps (m.run w).out = [])
    (hvalue : ∀ w, (m.run w).state.sess.value = w.sess.value)
    (hresponse : ∀ w, (m.run w).state.sess.response = w.sess.response)
    (hnext : ∀ w, (m.run w).state.nextBuf = w.nextBuf) : Always m Still := by
  intro w _
  refine ⟨⟨fun o₀ h => ?_, hvalue w⟩, hresponse w⟩
  unfold World.Owns Session.slots
  rw [hvalue, hresponse, hnext, hout, List.append_nil]
  exact h

theorem still_modify {f : World → World} (hvalue : ∀ w, (f w).sess.value = w.sess.value)
    (hresponse : ∀ w, (f w).sess.response = w.sess.response)
    (hnext : ∀ w, (f w).nextBuf = w.nextBuf) : Always (modify f) Still :=
  still_of_frame (fun _ => rfl) hvalue hresponse hnext

theorem still_emit {o : Event} (h : o.heapOp = none) : Always (emit o) Still :=
  still_of_frame (fun _ => List.filterMap_cons_none h) (fun _ => rfl) (fun _ => rfl) fun _ => rfl

theorem still_nextTick : Always nextTick Still :=
  still_of_frame (fun _ => rfl) (fun _ => rfl) (fun _ => rfl) fun _ => rfl

theorem still_pure (a : α) : Always (pure a : M α) Still := RelOn.pure Still.composable

theorem still_gets (f : World → α) : Always (gets f : M α) Still := RelOn.gets Still.composable

theorem still_fail (c : Crash) : Always (fail c : M α) Still := RelOn.fail Still.composable

theorem still_sprintfInto (cap : Nat) (text : Str) : Always (sprintfInto cap text) Still := by
  unfold sprintfInto
  exact RelOn.ite (fun _ => still_pure _) fun _ => still_fail _

theorem still_lift (x : Except Crash α) : Always (lift x) Still := by
  cases x with
  | ok a => exact still_pure a
  | error c => exact still_fail c

theorem still_deref (s : Option Str) : Always (deref s) Still := by
  cases s with
  | none => exact still_fail _
  | some s => exact still_pure s

theorem still_callPtr {op : Op} {args : List (Option Str)} {body : M α} (h : Always body Still) :
    Always (callPtr op args body) Still :=
  always_callPtr Still.composable (still_emit rfl) h

/-- An answer may be rendered from the buffers in the slot. -/
theorem still_sendResponse (fmt : String) (args : List Arg) :
    RelOn (fun w => args.filterMap Arg.buf ⊆ w.sess.slots) (sendResponse fmt args) Still := by
  refine RelOn.bind (Q := fun _ w => args.filterMap Arg.buf ⊆ w.sess.slots) Still.composable
    ((still_sprintfInto _ _).weaken fun _ _ => trivial) ?_ fun payload w hsub => ?_
  · intro w hsub a _
    rw [run_sprintfInto]
    exact hsub
  · rw [run_callPtr]
    split
    · exact ⟨⟨fun o₀ h => h.use hsub, rfl⟩, rfl⟩
    · exact still_emit (o := .invoke .write [some payload]) rfl w trivial

theorem still_reply (text : String) : Always (reply text) Still :=
  (still_sendResponse _ _).weaken fun _ _ => List.nil_subset _

/-- An answer that shows one pointer of the slot. -/
theorem still_answer {pointer : World → Option Buf} {dflt fmt : String}
    (h : ∀ w b, pointer w = some b → b.id ∈ w.sess.slots) :
    Always (do let a ← gets fun w => bufOr dflt (pointer w); sendResponse fmt [a]) Still := by
  intro w _
  rw [run_bind_of_ok (a := bufOr dflt (pointer w)) rfl]
  refine still_sendResponse fmt _ w ?_
  cases hp : pointer w with
  | none => exact List.nil_subset _
  | some b => exact List.cons_subset.mpr ⟨h w b hp, List.nil_subset _⟩

theorem Session.value_mem_slots {s : Session} {b : Buf} (h : s.value = some b) :
    b.id ∈ s.slots := by simp [slots, h]

theorem Session.response_mem_slots {s : Session} {b : Buf} (h : s.response = some b) :
    b.id ∈ s.slots := by simp [slots, h]

theorem still_replyValue (dflt : String) : Always (replyValue dflt) Still :=
  still_answer fun _ _ => Session.value_mem_slots

theorem still_replyError (dflt : String) : Always (replyError dflt) Still :=
  still_answer fun _ _ => Session.response_mem_slots

theorem DbLeaf.still_ok (l : DbLeaf) : Always l.ok Still := by
  cases l with
  | addItem | dltItem => exact (still_sendResponse _ _).weaken fun _ _ => List.nil_subset _
  | _ => exact still_replyValue _

theorem DbLeaf.still_err (l : DbLeaf) : Always l.err Still := by
  cases l with
  | addItem | dltItem => exact still_answer fun _ _ => Session.response_mem_slots
  | getAllUsers | getImage | getAllImages => exact still_reply _
  | _ => exact still_replyError _

theorem DbLeaf.still_refused (l : DbLeaf) : Always l.refused Still := by
  cases l with
  | updateUsr | updateImage => exact still_pure _
  | _ => exact still_reply _

theorem still_sqlite3Exec (y : Sys) (sql : Str) (callback : β → RowText → Except Crash β)
    (data : β) : Always (sqlite3Exec y sql callback data) Still := by
  refine still_bind (still_emit rfl) fun _ => still_bind still_nextTick fun t => ?_
  cases y.fault t with
  | some fault => exact still_pure _
  | none =>
    exact still_bind (still_gets _) fun db =>
      still_bind (still_modify (fun _ => rfl) (fun _ => rfl) fun _ => rfl) fun _ =>
        still_bind (still_lift _) fun _ => still_pure _

theorem still_computeHash (y : Sys) (key : Option Str) : Always (computeHash y key) Still :=
  still_callPtr (still_bind (still_deref key) fun _ => still_pure _)

theorem still_runProcess (y : Sys) (line : Str) : Always (runProcess y line) Still := by
  have hsend (fmt : String) (s : Str) : Always (sendResponse fmt [txt s]) Still :=
    (still_sendResponse _ _).weaken fun _ _ => List.nil_subset _
  refine still_bind still_nextTick fun t => RelOn.ite (fun _ => ?_) fun _ => hsend _ _
  refine still_bind (still_emit rfl) fun _ => still_bind still_nextTick fun t =>
    still_bind (still_gets _) fun db =>
      still_bind (still_modify (fun _ => rfl) (fun _ => rfl) fun _ => rfl) fun _ => ?_
  cases (y.popen t line db).1 with
  | none => exact still_fail _
  | some chunks => exact still_bind (still_lift _) fun _ => hsend _ _

theorem still_execRpcCmd (y : Sys) (command : Str) : Always (execRpcCmd y command) Still :=
  still_bind (still_emit rfl) fun _ => still_bind (still_sprintfInto _ _) fun _ =>
    still_runProcess y _

theorem still_openShell (y : Sys) (command : Option Str) : Always (openShell y command) Still :=
  still_bind (still_emit rfl) fun _ => still_bind (still_deref _) fun _ =>
    still_bind (still_sprintfInto _ _) fun _ => still_runProcess y _

/-! ## Runs that store a message -/

theorem steady_bind {m : M α} {f : α → M β} (hm : Always m Steady)
    (hf : ∀ a, Always (f a) Steady) : Always (m >>= f) Steady :=
  RelOn.seq Steady.composable hm hf

/-- A message is forgotten. -/
theorem steady_setResponse_none : Always (setResponse none) Steady :=
  RelOn.modify fun w _ => ⟨fun o₀ h => by
    rw [heapOps_nil, List.append_nil]
    refine h.mono ?_ fun _ => id
    simp [Session.slots], rfl⟩

/-- A fresh message takes the place of the one before, which is forgotten. -/
theorem steady_newMessage (msg : Str) :
    Always (do let b ← allocBuf msg; setResponse (some b)) Steady := by
  intro w _
  refine ⟨fun o₀ h => ?_, rfl⟩
  -- the old message is not released: its buffer is lost
  have hvalue : CLib.Owns (w.nextBuf ≤ ·) (w.sess.value.toList.map Buf.id) o₀ :=
    h.mono (by simp [Session.slots]) fun _ => id
  have hnew := hvalue.alloc (G := (w.nextBuf + 1 ≤ ·)) (b := w.nextBuf) le_rfl (by omega)
    fun b hb => by omega
  show CLib.Owns (w.nextBuf + 1 ≤ ·)
    ((w.sess.value.toList ++ [(⟨w.nextBuf, msg⟩ : Buf)]).map Buf.id) (o₀ ++ [.alloc w.nextBuf])
  rw [List.map_append]
  exact hnew.perm (List.perm_append_singleton ..).symm

theorem steady_storeMessage (fault : Option Fault) : Always (storeMessage fault) Steady := by
  match fault with
  | none => exact steady_setResponse_none
  | some .misuse => exact RelOn.pure Steady.composable
  | some (.error none) => exact steady_setResponse_none
  | some (.error (some msg)) => exact steady_newMessage msg

theorem steady_stmt (y : Sys) : StmtJudgment y (Always · Steady) where
  pure _ := RelOn.pure Steady.composable
  bind := steady_bind
  gets _ := RelOn.gets Steady.composable
  tick := still_nextTick.steady
  sprintfInto cap text := (still_sprintfInto cap text).steady
  exec sql callback data := (still_sqlite3Exec y sql callback data).steady
  store := steady_storeMessage
  hash key := (still_computeHash y key).steady

/-! ## Runs that store a result -/

theorem keeps_bind {m : M α} {f : α → M β} (hm : Always m Keeps) (hf : ∀ a, Always (f a) Keeps) :
    Always (m >>= f) Keeps := RelOn.seq Keeps.composable hm hf

/-- A part that leaves the result, with a condition on the result. -/
theorem keeps_then {P : Option Buf → Prop} {m : M α} {f : α → M β} (hm : Always m Steady)
    (hf : ∀ a, RelOn (fun w => P w.sess.value) (f a) Keeps) :
    RelOn (fun w => P w.sess.value) (m >>= f) Keeps :=
  RelOn.bind (Q := fun _ w => P w.sess.value) Keeps.composable
    (hm.keeps.weaken fun _ _ => trivial)
    (fun w hw _ _ => show P _ from (hm w trivial).value.symm ▸ hw) hf

/-- A fresh result takes the place of the one before, which is forgotten. -/
def newValue (text : Str) : M Buf := do
  let b ← allocBuf text
  setValue (some b)
  pure b

theorem keeps_newValue (text : Str) : Always (newValue text) Keeps := by
  intro w _ o₀ h
  have hresponse : CLib.Owns (w.nextBuf ≤ ·) (w.sess.response.toList.map Buf.id) o₀ :=
    h.mono (by simp [Session.slots]) fun _ => id
  exact hresponse.alloc (G := (w.nextBuf + 1 ≤ ·)) (b := w.nextBuf) le_rfl (by omega)
    fun b hb => by omega

theorem newValue_value (text : Str) :
    Triple (fun _ => True) (newValue text) fun b _ w => w.sess.value = some b := by
  intro w _ b hb
  cases hb
  rfl

/-- The text of the result changes, its buffer does not. -/
theorem keeps_rewrite {b : Buf} (text : Str) :
    RelOn (fun w => w.sess.value = some b) (setValue (some ⟨b.id, text⟩)) Keeps := by
  intro w hw o₀ h
  show CLib.Owns (w.nextBuf ≤ ·) (b.id :: w.sess.response.toList.map Buf.id) (o₀ ++ [])
  rw [List.append_nil]
  simpa [World.Owns, Session.slots, hw] using h

/-- A listing, once it has its buffer. -/
def listRest (y : Sys) (sz : Sizes) (sql : Str) (b : Buf) : M Int := do
  let r ← sqlite3Exec y sql (listRow sz.row sz.stream) ⟨[], 0⟩
  storeMessage r.2
  if r.2.isNone then
    let stbuf ← sprintfInto sz.stbuf r.1.buf
    let value ← sprintfInto sz.value (sprintf (lit "[ %s") [stbuf])
    setValue (some ⟨b.id, value.dropLast ++ lit "]"⟩)
  pure (status r.2)

theorem listInto_eq (y : Sys) (sz : Sizes) (opening sql : Str) :
    listInto y sz opening sql = newValue opening >>= listRest y sz sql := by
  unfold newValue
  simp only [bind_assoc, pure_bind]
  rfl

theorem keeps_listRest (y : Sys) (sz : Sizes) (sql : Str) (b : Buf) :
    RelOn (fun w => w.sess.value = some b) (listRest y sz sql b) Keeps := by
  refine keeps_then (P := (· = some b)) (still_sqlite3Exec y _ _ _).steady fun r =>
    keeps_then (P := (· = some b)) (steady_storeMessage _) fun _ => ?_
  split
  · refine keeps_then (P := (· = some b)) (still_sprintfInto _ _).steady fun stbuf =>
      keeps_then (P := (· = some b)) (still_sprintfInto _ _).steady fun value => ?_
    exact RelOn.seq Keeps.composable (keeps_rewrite _) fun _ => RelOn.pure Keeps.composable
  · exact RelOn.pure Keeps.composable

theorem keeps_listInto (y : Sys) (sz : Sizes) (opening sql : Str) :
    Always (listInto y sz opening sql) Keeps := by
  rw [listInto_eq]
  exact RelOn.bind Keeps.composable (keeps_newValue opening) (newValue_value opening)
    (keeps_listRest y sz sql)

theorem keeps_db (y : Sys) : DbJudgment y (Always · Keeps) where
  pure _ := RelOn.pure Keeps.composable
  bind := keeps_bind
  gets _ := RelOn.gets Keeps.composable
  tick := still_nextTick.steady.keeps
  sprintfInto cap text := (still_sprintfInto cap text).steady.keeps
  exec sql callback data := (still_sqlite3Exec y sql callback data).steady.keeps
  store fault := (steady_storeMessage fault).keeps
  hash key := (still_computeHash y key).steady.keeps
  listing := keeps_listInto y

/-! ## Runs that release -/

theorem run_freeValue (w : World) :
    freeValue.run w = ⟨.ok (), { w with sess := { w.sess with value := none } },
      w.sess.value.toList.map fun b => .free b.id⟩ := by
  cases hv : w.sess.value <;> simp [freeValue, run_bind, hv, setValue]

theorem run_freeResponse (w : World) :
    freeResponse.run w = ⟨.ok (), { w with sess := { w.sess with response := none } },
      w.sess.response.toList.map fun b => .free b.id⟩ := by
  cases hv : w.sess.response with
  | none =>
    have hstate : { w with sess := { w.sess with response := none } } = w := by rw [← hv]
    simp [freeResponse, run_bind, hv, hstate]
  | some b => simp [freeResponse, run_bind, hv, setResponse]

theorem keeps_freeValue : Always freeValue Keeps := by
  intro w _ o₀ h
  rw [run_freeValue]
  unfold World.Owns Session.slots at h ⊢
  cases hv : w.sess.value with
  | none => simpa [hv] using h
  | some b =>
    rw [hv] at h
    exact h.free

theorem keeps_freeResponse : Always freeResponse Keeps := by
  intro w _ o₀ h
  rw [run_freeResponse]
  unfold World.Owns Session.slots at h ⊢
  cases hv : w.sess.response with
  | none => simpa [hv] using h
  | some b =>
    rw [hv, List.map_append] at h
    have hfree := (h.perm List.perm_append_comm).free
    simpa [heapOps, Event.heapOp] using hfree

theorem keeps_cleanup (l : DbLeaf) : Always l.cleanup Keeps := by
  cases l with
  | addItem | dltItem | updateItem | getAllItems =>
    exact keeps_bind keeps_freeValue fun _ => steady_setResponse_none.keeps
  | getAllUsers | getImage | getAllImages => exact keeps_freeValue
  | _ => exact RelOn.pure Keeps.composable

theorem DbLeaf.keeps_prog (y : Sys) (l : DbLeaf) : Always (l.prog y) Keeps := by
  refine keeps_bind ?_ fun _ => keeps_bind (keeps_cleanup l) fun _ => keeps_freeResponse
  refine keeps_bind (RelOn.gets Keeps.composable) fun set => RelOn.ite (fun _ => ?_) fun _ =>
    l.still_refused.steady.keeps
  refine keeps_bind (always_callPtr Keeps.composable
    (still_emit rfl).steady.keeps ((keeps_db y).call l)) fun result => ?_
  exact RelOn.ite (fun _ => l.still_ok.steady.keeps) fun _ => l.still_err.steady.keeps

/-! ## Requests -/

theorem still_bye : Always (do callPtr .close [] closeClient; emit .freeIp) Still := by
  refine still_bind (still_callPtr ?_) fun _ => still_emit rfl
  exact still_bind (still_modify (fun _ => rfl) (fun _ => rfl) fun _ => rfl) fun _ =>
    still_emit rfl

theorem still_down (y : Sys) : Always (down y) Still :=
  still_bind (still_modify (fun _ => rfl) (fun _ => rfl) fun _ => rfl) fun _ =>
    still_bind (still_emit rfl) fun _ => RelOn.ite (fun _ => still_pure _) fun _ => still_fail _

theorem still_setLoggingLevel (level : Option Str) : Always (setLoggingLevel level) Still :=
  still_bind (still_deref level) fun _ => still_modify (fun _ => rfl) (fun _ => rfl) fun _ => rfl

/-- The requests that have nothing to do with the slot. -/
def Request.apart : Request → Bool
  | db _ | dbInvalid | logCmd .. | cliNode .. | listPeers => false
  | _ => true

theorem still_prog (y : Sys) {r : Request} (h : r.apart = true) : Always (r.prog y) Still := by
  have hsend (fmt : String) (s : Str) : Always (sendResponse fmt [txt s]) Still :=
    (still_sendResponse _ _).weaken fun _ _ => List.nil_subset _
  have hcontrol {op : Op} {granted : M Unit} (hg : Always granted Still) :
      Always (controlled op granted) Still :=
    still_bind (still_gets _) fun _ => RelOn.ite (fun _ => hg) fun _ => still_reply _
  cases r with
  | bye => exact still_bye
  | malformed | invalid | underWay => exact still_reply _
  | auth => exact (still_sendResponse _ _).weaken fun _ _ => List.nil_subset _
  | crash => exact still_fail _
  | superMode command => exact still_openShell y command
  | getTax => exact still_bind (still_gets _) fun _ => hsend _ _
  | setLogging level =>
    exact hcontrol (still_bind (still_callPtr (still_setLoggingLevel level)) fun _ => hsend _ _)
  | getLogging => exact hcontrol (still_bind (still_callPtr (still_gets _)) fun _ => hsend _ _)
  | getLogLevels => exact hcontrol (still_bind (still_callPtr (still_pure _)) fun _ => hsend _ _)
  | shutdown =>
    exact hcontrol (still_bind ((still_sendResponse _ _).weaken fun _ _ => List.nil_subset _)
      fun _ => still_callPtr (still_down y))
  | unanswered => exact still_pure _
  | db | dbInvalid | logCmd | cliNode | listPeers => cases h

/-- The insert into the transaction log, as a request runs it. -/
theorem steady_logCommand (y : Sys) (type : LogType) (args : List (Option Str))
    (process command latlong txId : Option Str) :
    Always (callPtr .logCmd args (logRpcCommand y type process command latlong txId)) Steady :=
  always_callPtr Steady.composable (still_emit rfl).steady
    ((steady_stmt y).logRpcCommand _ _ _ _ _)

/-- **Every request keeps the discipline**, but for a list of peers that is granted. -/
theorem keeps_prog (y : Sys) (r : Request) :
    RelOn (fun w => r = .listPeers → w.sess.ops .list = false) (r.prog y) Keeps := by
  have any {m : M Unit} (h : Always m Keeps) :
      RelOn (fun w => r = .listPeers → w.sess.ops .list = false) m Keeps :=
    h.weaken fun _ _ => trivial
  cases hr : r.apart with
  | true => exact any (still_prog y hr).steady.keeps
  | false =>
    cases r with
    | db leaf => exact any (leaf.keeps_prog y)
    | dbInvalid =>
      exact any (keeps_bind (still_reply _).steady.keeps fun _ => keeps_freeResponse)
    | logCmd process latlong txId command =>
      exact any (keeps_bind (steady_logCommand y _ _ _ _ _ _).keeps fun _ =>
        RelOn.pure Keeps.composable)
    | cliNode process latlong txId command =>
      refine any (keeps_bind (RelOn.gets Keeps.composable) fun isLogged => ?_)
      have hexec := (still_execRpcCmd y command).steady.keeps
      split
      · exact keeps_bind (steady_logCommand y _ _ _ _ _ _).keeps fun _ => hexec
      · exact hexec
    | listPeers =>
      intro w hw
      show Keeps w ((controlled .list sendPeers).run w).out ((controlled .list sendPeers).run w).state
      unfold controlled
      rw [run_bind, run_isSet, hw rfl]
      simpa using (still_reply _).steady.keeps w trivial
    | _ => cases hr

/-! ## Requests that leave the slot empty -/

/-- Both pointers are `NULL`. -/
structure Session.Clean (s : Session) : Prop where
  value : s.value = none
  response : s.response = none

theorem value_none_of_steady {m : M α} (h : Always m Steady) :
    Triple (fun w => w.sess.value = none) m fun _ _ w => w.sess.value = none :=
  fun w hw _ _ => (h w trivial).value.trans hw

theorem clean_of_still {m : M α} (h : Always m Still) :
    Triple (fun w => w.sess.Clean) m fun _ _ w => w.sess.Clean :=
  fun w hw _ _ => ⟨(h w trivial).value.trans hw.value, (h w trivial).response.trans hw.response⟩

theorem DbLeaf.steady_guarded (y : Sys) {l : DbLeaf} (hl : l.lists = false) :
    Always (guarded l.op l.args (l.call y) l.ok l.err l.refused) Steady := by
  refine steady_bind (still_gets _).steady fun set => RelOn.ite (fun _ => ?_) fun _ =>
    l.still_refused.steady
  refine steady_bind (always_callPtr Steady.composable (still_emit rfl).steady
    ((steady_stmt y).call hl)) fun result => ?_
  exact RelOn.ite (fun _ => l.still_ok.steady) fun _ => l.still_err.steady

theorem DbLeaf.cleanup_value (l : DbLeaf) :
    Triple (fun w => l.lists = true ∨ w.sess.value = none) l.cleanup
      fun _ _ w => w.sess.value = none := by
  intro w h _ _
  cases l with
  | addItem | dltItem | updateItem | getAllItems =>
    simp [cleanup, run_bind, run_freeValue, setResponse]
  | getAllUsers | getImage | getAllImages =>
    simp [cleanup, run_freeValue]
  | _ => exact h.resolve_left Bool.false_ne_true

theorem freeResponse_clean :
    Triple (fun w => w.sess.value = none) freeResponse fun _ _ w => w.sess.Clean := by
  intro w h _ _
  rw [run_freeResponse]
  exact ⟨h, rfl⟩

theorem DbLeaf.clean_prog (y : Sys) (l : DbLeaf) :
    Triple (fun w => w.sess.Clean) (l.prog y) fun _ _ w => w.sess.Clean := by
  refine Triple.bind (Q := fun _ _ w => l.lists = true ∨ w.sess.value = none) ?_ fun _ _ =>
    Triple.bind (Q := fun _ _ w => w.sess.value = none) l.cleanup_value fun _ _ =>
      freeResponse_clean
  intro w hw a ha
  cases hl : l.lists with
  | true => exact .inl rfl
  | false => exact .inr (value_none_of_steady (steady_guarded y hl) w hw.value a ha)

/-- The message call number `t` of `sqlite3_exec` gives back. -/
def execMessage (y : Sys) (t : Nat) (sql : Str) (db : Db) : Option Str :=
  match y.fault t with
  | some .misuse => none
  | some (.error msg) => msg
  | none => (y.engine.exec catalog sql db).err

theorem sqlite3Exec_message (y : Sys) (sql : Str) (callback : β → RowText → Except Crash β)
    (data : β) :
    Triple (fun w => execMessage y w.tick sql w.srv.db = none) (sqlite3Exec y sql callback data)
      fun r _ _ => ∀ msg, r.2 ≠ some (.error (some msg)) := by
  intro w h r hr
  unfold execMessage at h
  simp only [sqlite3Exec, run_bind, run_emit, run_nextTick] at hr
  cases hf : y.fault w.tick with
  | some fault =>
    simp only [hf, run_pure] at h hr
    cases hr
    rintro msg heq
    cases heq
    cases h
  | none =>
    simp only [hf] at h
    simp only [hf, run_bind, run_gets, run_modify] at hr
    cases hfold : (y.engine.exec catalog sql w.srv.db).rows.foldlM callback data with
    | error c => simp [hfold] at hr
    | ok data' =>
      simp [hfold, h] at hr
      cases hr
      exact fun msg => nofun

theorem storeMessage_response {fault : Option Fault}
    (h : ∀ msg, fault ≠ some (.error (some msg))) :
    Triple (fun w => w.sess.response = none) (storeMessage fault)
      fun _ _ w => w.sess.response = none := by
  intro w hw _ _
  match fault with
  | none => rfl
  | some .misuse => exact hw
  | some (.error none) => rfl
  | some (.error (some msg)) => exact absurd rfl (h msg)

theorem runStatement_response (y : Sys) (cap : Nat) (text : Str) :
    Triple (fun w => w.sess.response = none ∧ execMessage y w.tick text w.srv.db = none)
      (runStatement y cap text) fun _ _ w => w.sess.response = none := by
  refine Triple.bind (Q := fun sql _ w => sql = text ∧ w.sess.response = none ∧
      execMessage y w.tick text w.srv.db = none) ?_ fun sql _ => ?_
  · intro w h sql hsql
    rw [run_sprintfInto] at hsql ⊢
    split at hsql
    · cases hsql
      exact ⟨rfl, h⟩
    · cases hsql
  · refine Triple.bind (Q := fun r _ w => w.sess.response = none ∧
        ∀ msg, r.2 ≠ some (.error (some msg))) ?_ fun r _ => ?_
    · rintro w ⟨rfl, hresponse, hmessage⟩ r hr
      exact ⟨(still_sqlite3Exec y _ _ _ w trivial).response.trans hresponse,
        sqlite3Exec_message y _ _ _ w hmessage r hr⟩
    · refine Triple.bind (Q := fun _ _ w => w.sess.response = none)
        (fun w h => storeMessage_response h.2 w h.1) fun _ _ => Triple.pure fun _ => id

/-- The message an insert into the transaction log leaves behind. -/
def logMessage (y : Sys) (w : World) (type : LogType) (process command latlong txId : Option Str) :
    Option Str :=
  execMessage y (w.tick + 1) (logSql y w type process command latlong txId) w.srv.db

theorem logRpcCommand_response (y : Sys) (type : LogType)
    (process command latlong txId : Option Str) :
    Triple (fun w => w.sess.response = none ∧
        logMessage y w type process command latlong txId = none)
      (logRpcCommand y type process command latlong txId)
      fun _ _ w => w.sess.response = none := by
  intro w h a ha
  rw [run_logRpcCommand] at ha ⊢
  exact runStatement_response y 8000 _ _ h a ha

/-- An insert into the transaction log without a message. -/
theorem clean_logCommand (y : Sys) (type : LogType) (args : List (Option Str))
    (process command latlong txId : Option Str) :
    Triple (fun w => w.sess.Clean ∧ logMessage y w type process command latlong txId = none)
      (callPtr .logCmd args (logRpcCommand y type process command latlong txId))
      fun _ _ w => w.sess.Clean := by
  rintro w ⟨hclean, hmessage⟩ a ha
  refine ⟨((steady_logCommand y type args _ _ _ _) w trivial).value.trans hclean.value, ?_⟩
  rw [run_callPtr] at ha ⊢
  split at ha
  · next hset =>
    rw [if_pos hset]
    exact logRpcCommand_response y type _ _ _ _ w ⟨hclean.response, hmessage⟩ a ha
  · cases ha

/-- When a request that starts with an empty slot leaves it empty: it is no granted
list of peers, and what it inserts into the transaction log is inserted without an
error message. -/
def Request.Tidy (y : Sys) (w : World) : Request → Prop
  | listPeers => w.sess.ops .list = false
  | logCmd process latlong txId command =>
    logMessage y w .reqd process command (some latlong) txId = none
  | cliNode process latlong txId command =>
    w.sess.isLogged = 0 ∨ logMessage y w .auto process (some command) (some latlong) txId = none
  | _ => True

instance (y : Sys) (w : World) (r : Request) : Decidable (r.Tidy y w) := by
  unfold Request.Tidy
  cases r <;> infer_instance

/-- **Tidy requests.** -/
theorem clean_prog (y : Sys) (r : Request) :
    Triple (fun w => w.sess.Clean ∧ r.Tidy y w) (r.prog y) fun _ _ w => w.sess.Clean := by
  have any {m : M Unit} (h : Triple (fun w => w.sess.Clean) m fun _ _ w => w.sess.Clean) :
      Triple (fun w => w.sess.Clean ∧ r.Tidy y w) m fun _ _ w => w.sess.Clean :=
    h.consequence (fun _ => And.left) fun _ _ _ => id
  cases hr : r.apart with
  | true => exact any (clean_of_still (still_prog y hr))
  | false =>
    cases r with
    | db leaf => exact any (leaf.clean_prog y)
    | dbInvalid =>
      exact any (Triple.bind (Q := fun _ _ w => w.sess.Clean) (clean_of_still (still_reply _))
        fun _ _ => freeResponse_clean.consequence (fun _ h => h.value) fun _ _ _ => id)
    | logCmd process latlong txId command =>
      exact Triple.bind (Q := fun _ _ w => w.sess.Clean) (S := fun _ _ w => w.sess.Clean)
        ((clean_logCommand y .reqd _ _ _ _ _).consequence (fun _ => id) fun _ _ _ => id)
        fun _ _ => Triple.pure fun _ => id
    | cliNode process latlong txId command =>
      rintro w ⟨hclean, htidy⟩ a ha
      have hexec := clean_of_still (still_execRpcCmd y command)
      unfold Request.prog runCliNode at ha ⊢
      rw [run_bind_of_ok (a := w.sess.isLogged) rfl] at ha ⊢
      by_cases hlogged : w.sess.isLogged = 0
      · simp only [hlogged, ne_eq, not_true_eq_false, if_false] at ha ⊢
        exact hexec w hclean a ha
      · simp only [hlogged, ne_eq, not_false_eq_true, if_true] at ha ⊢
        exact Triple.bind (Q := fun _ _ w => w.sess.Clean) (S := fun _ _ w => w.sess.Clean)
          (clean_logCommand y _ _ _ _ _ _) (fun _ _ => hexec) w
          ⟨hclean, htidy.resolve_left hlogged⟩ a ha
    | listPeers =>
      rintro w ⟨hclean, htidy⟩ a ha
      have hrun : (Request.listPeers.prog y).run w
          = (reply "resp,fail,reason,un-authorized").run w := by
        show (controlled .list sendPeers).run w = _
        unfold controlled
        rw [run_bind, run_isSet, htidy]
        simp
      rw [hrun] at ha ⊢
      exact clean_of_still (still_reply _) w hclean a ha
    | _ => cases hr

/-! ## The commands of a session -/

/-- What may happen between two commands of a session: others run, and allocate
buffers of their own. -/
structure Interlude (w w' : World) : Prop where
  ops : w'.sess.ops = w.sess.ops
  value : w'.sess.value = w.sess.value
  response : w'.sess.response = w.sess.response
  nextBuf : w.nextBuf ≤ w'.nextBuf

/-- Commands processed on the session `s`, each under the condition `P`: their
traces, and the world after the last of them. -/
inductive Served (y : Sys) (s : Session) (P : World → Str → Prop) :
    List (List Event) → World → Prop where
  | start {w : World} : w.sess = s → Served y s P [] w
  | command {traces : List (List Event)} {v w : World} (cmd : Str) :
      Served y s P traces v → Interlude v w → P w cmd →
      ((processCmd y cmd).run w).val = .ok () →
      Served y s P (traces ++ [((processCmd y cmd).run w).out]) ((processCmd y cmd).run w).state

/-- The slot is clean after a run: both pointers are `NULL`; no buffer is released
twice, or sent after its release; what is sent was allocated for the same command. -/
structure SlotDiscipline (traces : List (List Event)) (w : World) : Prop where
  clean : w.sess.Clean
  once : ∀ b, traces.flatten.count (.free b) ≤ 1
  before : ∀ {o o' : List Event} {payload : Str} {bufs : List Nat},
    traces.flatten = o ++ .send payload bufs :: o' → ∀ b ∈ bufs, .free b ∉ o
  own : ∀ o ∈ traces, ∀ payload bufs, .send payload bufs ∈ o → ∀ b ∈ bufs, .alloc b ∈ o

theorem count_free (o : List Event) (b : Nat) :
    (heapOps o).count (.free b) = o.count (.free b) := by
  unfold heapOps List.count
  rw [List.countP_filterMap]
  exact List.countP_congr fun e _ => by cases e <;> simp [Event.heapOp]

theorem mem_heapOps_free {o : List Event} {b : Nat} : .free b ∈ heapOps o ↔ .free b ∈ o := by
  refine List.mem_filterMap.trans ⟨?_, fun h => ⟨_, h, rfl⟩⟩
  rintro ⟨e, he, heq⟩
  cases e with
  | free c =>
    cases heq
    exact he
  | _ => cases heq

theorem alloc_of_mem_heapOps {o : List Event} {b : Nat} (h : .alloc b ∈ heapOps o) :
    .alloc b ∈ o := by
  obtain ⟨e, he, heq⟩ := List.mem_filterMap.mp h
  cases e with
  | alloc c =>
    cases heq
    exact he
  | _ => cases heq

/-- The slot is empty, it owned what was live on the way, and so did it within each
command. -/
structure SlotInv (traces : List (List Event)) (w : World) : Prop where
  clean : w.sess.Clean
  owns : w.Owns (heapOps traces.flatten)
  each : ∀ o ∈ traces, Disciplined (heapOps o)

theorem World.owns_nil {w : World} (h : w.sess.Clean) : w.Owns [] := by
  unfold Owns Session.slots
  rw [h.value, h.response]
  exact CLib.Owns.nil

theorem SlotInv.interlude {traces : List (List Event)} {w w' : World} (h : SlotInv traces w)
    (hi : Interlude w w') : SlotInv traces w' where
  clean := ⟨hi.value.trans h.clean.value, hi.response.trans h.clean.response⟩
  owns := by
    refine CLib.Owns.mono h.owns ?_ fun b hb => Nat.le_trans hi.nextBuf hb
    unfold Session.slots
    rw [hi.value, hi.response]
  each := h.each

theorem Request.tidy_saved {y : Sys} {w : World} {saved : Str} {r : Request} :
    r.Tidy y { w with saved } ↔ r.Tidy y w := by
  cases r <;> exact Iff.rfl

/-- A tidy command keeps the invariant. -/
theorem SlotInv.command {y : Sys} {traces : List (List Event)} {w : World} {cmd : Str}
    (h : SlotInv traces w) (htidy : (parseRequest cmd).Tidy y w)
    (hret : ((processCmd y cmd).run w).val = .ok ()) :
    SlotInv (traces ++ [((processCmd y cmd).run w).out]) ((processCmd y cmd).run w).state := by
  obtain ⟨saved, hrun⟩ := processCmd_run y cmd w
  rw [hrun] at hret ⊢
  have hkeeps := keeps_prog y (parseRequest cmd) { w with saved } fun hr => by
    rw [hr] at htidy
    exact htidy
  refine ⟨clean_prog y _ { w with saved } ⟨h.clean, Request.tidy_saved.mpr htidy⟩ () hret, ?_, ?_⟩
  · rw [List.flatten_append, heapOps_append, List.flatten_singleton]
    exact hkeeps _ h.owns
  · intro o ho
    rcases List.mem_append.mp ho with ho | ho
    · exact h.each o ho
    · cases List.mem_singleton.mp ho
      exact (hkeeps [] (World.owns_nil (w := { w with saved }) h.clean)).disciplined

theorem SlotInv.discipline {traces : List (List Event)} {w : World} (h : SlotInv traces w) :
    SlotDiscipline traces w where
  clean := h.clean
  once b := by
    rw [← count_free]
    exact h.owns.disciplined.free_le_one b
  before heq b hb hfree := by
    have hd := h.owns.disciplined
    rw [heq, heapOps_append] at hd
    exact (hd.live_of_use hb).2 (mem_heapOps_free.mpr hfree)
  own o ho payload bufs hsend b hb := by
    obtain ⟨o₁, o₂, rfl⟩ := List.append_of_mem hsend
    have hd := h.each _ ho
    rw [heapOps_append] at hd
    exact List.mem_append_left _ (alloc_of_mem_heapOps (hd.live_of_use hb).1)

/-- **The slot over a session's life.** After commands that are all tidy, the slot
of a session is clean. -/
theorem slot_discipline (y : Sys) {role : Int} {uid : Nat} {s : Session}
    {traces : List (List Event)} {w : World} (hmk : mknod role uid = some s)
    (h : Served y s (fun w cmd => (parseRequest cmd).Tidy y w) traces w) :
    SlotDiscipline traces w := by
  have hclean : s.Clean := by
    rcases mknod_cases hmk with ⟨-, rfl⟩ | ⟨-, rfl⟩ | ⟨-, rfl⟩ <;> exact ⟨rfl, rfl⟩
  suffices hinv : SlotInv traces w from hinv.discipline
  induction h with
  | start hs =>
    subst hs
    exact ⟨hclean, World.owns_nil hclean, by simp⟩
  | command cmd _ hi htidy hret ih => exact (ih.interlude hi).command htidy hret

/-- The session of a default user, after it is created. -/
def dfltSession : Session := { initDataDflt with uid := 1 }

/-- A default user logs a command. -/
theorem slot_discipline_logCmd :
    let w := World.before dfltSession (usersDb [])
    let run := (processCmd quietSys (lit "log-cmd,p,1_2,3,c,<$#EOT#$>")).run w
    SlotDiscipline [run.out] run.state := by
  intro w run
  have htidy : (parseRequest (lit "log-cmd,p,1_2,3,c,<$#EOT#$>")).Tidy quietSys w := by
    decide +kernel
  have hret : run.val = .ok () := by decide +kernel
  exact slot_discipline quietSys (show mknod dflUsr 0 = some dfltSession from rfl)
    (.command _ (.start rfl) ⟨rfl, rfl, rfl, le_rfl⟩ htidy hret)

/-- The session of a root user, after it is created. -/
def rootSession : Session := { initDataRoot with uid := 1 }

/-- The list of peers is released a second time by the next command. -/
theorem not_slotDiscipline :
    ¬ ∀ (y : Sys) (role : Int) (uid : Nat) (s : Session) (traces : List (List Event)) (w : World),
      mknod role uid = some s → Served y s (fun _ _ => True) traces w →
      SlotDiscipline traces w := by
  intro h
  let w := World.before rootSession (usersDb [])
  let v := ((processCmd quietSys (lit "control,list-peers,<$#EOT#$>")).run w).state
  have hserved : Served quietSys rootSession (fun _ _ => True) _ _ :=
    .command (w := v) (lit "db,del,items,1,<$#EOT#$>")
      (.command (w := w) (lit "control,list-peers,<$#EOT#$>") (.start rfl)
        ⟨rfl, rfl, rfl, le_rfl⟩ trivial (by decide +kernel))
      ⟨rfl, rfl, rfl, le_rfl⟩ trivial (by decide +kernel)
  have honce := (h quietSys rootUsr 0 rootSession _ _ rfl hserved).once 0
  revert honce
  decide +kernel

end Thor
