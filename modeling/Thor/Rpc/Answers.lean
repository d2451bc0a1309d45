import Thor.Database.Walk

/-!
# Answers

How many answers a command gets. `count_prog` counts the calls of `send_response`
for every request, and `answered_once_iff` reads off which commands get exactly
one: all but a few leaves that answer nothing.
-/

namespace Thor

open CLib Sql Prog

/-- A call of `send_response`. -/
def isSend : Event → Bool
  | .send .. => true
  | _ => false

variable (y : Sys)

/-! ## Programs without an answer -/

/-- `m` sends nothing. -/
def Mute {α : Type} (m : M α) : Prop := CountOn (fun _ => True) m isSend 0

variable {y}

theorem mute_bind {α β : Type} {m : M α} {f : α → M β} (hm : Mute m) (hf : ∀ a, Mute (f a)) :
    Mute (m >>= f) := CountOn.skip hm hf

theorem mute_emit {o : Event} (h : isSend o = false) : Mute (emit o) := by
  have hc := CountOn.emit (σ := World) (ε := Crash) (P := fun _ => True) (o := o) (p := isSend)
  rwa [h] at hc

theorem mute_nextTick : Mute nextTick := fun _ _ _ _ => List.countP_nil

theorem mute_callPtr {α : Type} {op : Op} {args : List (Option Str)} {body : M α}
    (h : Mute body) : Mute (callPtr op args body) :=
  mute_bind (mute_emit rfl) fun _ => CountOn.skip CountOn.gets fun _ =>
    CountOn.ite (fun _ => h) fun _ => CountOn.fail

theorem mute_allocBuf (text : Str) : Mute (allocBuf text) :=
  CountOn.skip CountOn.gets fun _ => CountOn.skip CountOn.modify fun _ =>
    mute_bind (mute_emit rfl) fun _ => CountOn.pure

/-- No database function sends anything. -/
theorem mute_prim : PrimJudgment Mute where
  pure _ := CountOn.pure
  bind := mute_bind
  gets _ := CountOn.gets
  fail _ := CountOn.fail
  tick := mute_nextTick
  emitExec _ := mute_emit rfl
  setDb _ := CountOn.modify
  alloc := mute_allocBuf
  emitFree _ := mute_emit rfl
  setValue _ := CountOn.modify
  setResponse _ := CountOn.modify
  callHash := mute_callPtr

/-! ## Programs with one answer -/

/-- `m` answers exactly once, if it returns. -/
def Answers {α : Type} (m : M α) : Prop := CountOn (fun _ => True) m isSend 1

theorem answers_of_mute {α β : Type} {m : M α} {f : α → M β} (hm : Mute m)
    (hf : ∀ a, Answers (f a)) : Answers (m >>= f) := CountOn.skip hm hf

theorem answers_then {α β : Type} {m : M α} {f : α → M β} (hm : Answers m)
    (hf : ∀ a, Mute (f a)) : Answers (m >>= f) := CountOn.andSkip hm hf

theorem answers_callPtr {α : Type} {op : Op} {args : List (Option Str)} {body : M α}
    (h : Answers body) : Answers (callPtr op args body) :=
  answers_of_mute (mute_emit rfl) fun _ => CountOn.skip CountOn.gets fun _ =>
    CountOn.ite (fun _ => h) fun _ => CountOn.fail

theorem answers_sendResponse (fmt : String) (args : List Arg) :
    Answers (sendResponse fmt args) := by
  refine answers_of_mute (mute_prim.sprintfInto _ _) fun payload => answers_callPtr ?_
  have h := CountOn.emit (σ := World) (ε := Crash) (P := fun _ => True)
    (o := Event.send payload (args.filterMap Arg.buf)) (p := isSend)
  exact h

theorem answers_reply (text : String) : Answers (reply text) := answers_sendResponse _ _

theorem answers_replyValue (dflt : String) : Answers (replyValue dflt) :=
  answers_of_mute CountOn.gets fun _ => answers_sendResponse _ _

theorem answers_replyError (dflt : String) : Answers (replyError dflt) :=
  answers_of_mute CountOn.gets fun _ => answers_sendResponse _ _

theorem DbLeaf.answers_ok (l : DbLeaf) : Answers l.ok := by
  cases l with
  | addItem | dltItem => exact answers_sendResponse _ _
  | _ => exact answers_replyValue _

theorem DbLeaf.answers_err (l : DbLeaf) : Answers l.err := by
  cases l with
  | addItem | dltItem => exact answers_of_mute CountOn.gets fun _ => answers_sendResponse _ _
  | getAllUsers | getImage | getAllImages => exact answers_reply _
  | _ => exact answers_replyError _

theorem answers_controlled {op : Op} {granted : M Unit} (h : Answers granted) :
    Answers (controlled op granted) :=
  answers_of_mute CountOn.gets fun _ => CountOn.ite (fun _ => h) fun _ => answers_reply _

theorem answers_runProcess (y : Sys) (line : Str) : Answers (runProcess y line) := by
  refine answers_of_mute mute_nextTick fun t => CountOn.ite (fun _ => ?_) fun _ =>
    answers_sendResponse _ _
  refine answers_of_mute (mute_emit rfl) fun _ => answers_of_mute mute_nextTick fun t =>
    answers_of_mute CountOn.gets fun db => answers_of_mute CountOn.modify fun _ => ?_
  cases (y.popen t line db).1 with
  | none => exact CountOn.fail
  | some chunks => exact answers_of_mute (mute_prim.lift _) fun _ => answers_sendResponse _ _

theorem answers_execRpcCmd (y : Sys) (command : Str) : Answers (execRpcCmd y command) :=
  answers_of_mute (mute_emit rfl) fun _ => answers_of_mute (mute_prim.sprintfInto _ _) fun _ =>
    answers_runProcess y _

theorem answers_openShell (y : Sys) (command : Option Str) : Answers (openShell y command) :=
  answers_of_mute (mute_emit rfl) fun _ => answers_of_mute (mute_prim.deref _) fun _ =>
    answers_of_mute (mute_prim.sprintfInto _ _) fun _ => answers_runProcess y _

/-! ## Requests -/

/-- The requests that are not answered, for a session with the pointers `ops`. -/
def Request.unanswered? (ops : Op → Bool) : Request → Bool
  | bye | logCmd .. | unanswered => true
  | db (.updateUsr ..) => !ops .updateUsr
  | db (.updateImage ..) => !ops .updateImage
  | _ => false

/-- A leaf answers once, unless its pointer is not set and it has no answer for that. -/
theorem count_guarded {op : Op} {args : List (Option Str)} {call : M Int}
    {ok err refused : M Unit} {k : Nat} {set : Bool} (hcall : Mute call) (hok : Answers ok)
    (herr : Answers err) (hrefused : CountOn (fun _ => True) refused isSend k) :
    CountOn (fun w => w.sess.ops op = set) (guarded op args call ok err refused) isSend
      (if set then 1 else k) := by
  intro w hset a ha
  have hrun : (guarded op args call ok err refused).run w =
      (if set then callPtr op args call >>= fun result => if result = 0 then ok else err
        else refused).run w := by
    unfold guarded
    rw [run_bind, run_isSet, hset]
    simp
  rw [hrun] at ha ⊢
  cases set with
  | true =>
    exact answers_of_mute (mute_callPtr hcall)
      (fun _ => CountOn.ite (fun _ => hok) fun _ => herr) w trivial a ha
  | false => exact hrefused w trivial a ha

/-- How many answers a leaf has for a pointer that is not set. -/
def DbLeaf.refusals : DbLeaf → Nat
  | updateUsr .. | updateImage .. => 0
  | _ => 1

theorem DbLeaf.count_refused (l : DbLeaf) :
    CountOn (fun _ => True) l.refused isSend l.refusals := by
  cases l with
  | updateUsr | updateImage => exact CountOn.pure
  | _ => exact answers_reply _

theorem DbLeaf.refusals_eq (l : DbLeaf) (ops : Op → Bool) :
    (if ops l.op then 1 else l.refusals) = if (Request.db l).unanswered? ops then 0 else 1 := by
  cases l with
  | updateUsr => cases h : ops .updateUsr <;> simp [op, refusals, Request.unanswered?, h]
  | updateImage => cases h : ops .updateImage <;> simp [op, refusals, Request.unanswered?, h]
  | _ => simp [refusals, Request.unanswered?]

theorem DbLeaf.count_prog (y : Sys) (l : DbLeaf) (ops : Op → Bool) :
    CountOn (fun w => w.sess.ops = ops) (l.prog y) isSend
      (if (Request.db l).unanswered? ops then 0 else 1) := by
  have hguard : CountOn (fun w => w.sess.ops l.op = ops l.op)
      (guarded l.op l.args (l.call y) l.ok l.err l.refused) isSend
      (if ops l.op then 1 else l.refusals) :=
    count_guarded ((mute_prim.db y).call l) l.answers_ok l.answers_err l.count_refused
  rw [l.refusals_eq] at hguard
  exact CountOn.andSkip (hguard.weaken fun w h => congrFun h l.op) fun _ =>
    mute_bind (mute_prim.cleanup l) fun _ => mute_prim.freeResponse

theorem answers_sendPeers : Answers sendPeers := by
  refine answers_of_mute (mute_callPtr ?_) fun _ => answers_of_mute CountOn.gets fun v => ?_
  · exact mute_bind (mute_allocBuf _) fun _ => CountOn.skip CountOn.modify fun _ =>
      CountOn.skip CountOn.gets fun _ => mute_bind (mute_prim.sprintfInto _ _) fun _ => CountOn.modify
  · cases v with
    | none => exact CountOn.fail
    | some b => exact answers_then (answers_sendResponse _ _) fun _ => mute_emit rfl

theorem answers_runCliNode (y : Sys) (process : Option Str) (latlong : Str) (txId : Option Str)
    (command : Str) : Answers (runCliNode y process latlong txId command) := by
  refine answers_of_mute CountOn.gets fun isLogged => ?_
  split
  · exact answers_of_mute (mute_callPtr ((mute_prim.db y).logRpcCommand _ _ _ _ _)) fun _ =>
      answers_execRpcCmd y command
  · exact answers_execRpcCmd y command

/-- **Answers by request.** -/
theorem count_prog (y : Sys) (r : Request) (ops : Op → Bool) :
    CountOn (fun w => w.sess.ops = ops) (r.prog y) isSend
      (if r.unanswered? ops then 0 else 1) := by
  have one {m : M Unit} (h : Answers m) : CountOn (fun w => w.sess.ops = ops) m isSend 1 :=
    h.weaken fun _ _ => trivial
  have zero {m : M Unit} (h : Mute m) : CountOn (fun w => w.sess.ops = ops) m isSend 0 :=
    h.weaken fun _ _ => trivial
  cases r with
  | bye =>
    exact zero (mute_bind (mute_callPtr (CountOn.skip CountOn.modify fun _ => mute_emit rfl))
      fun _ => mute_emit rfl)
  | malformed | invalid | underWay => exact one (answers_reply _)
  | auth => exact one (answers_sendResponse _ _)
  | crash => exact CountOn.fail
  | db leaf => exact leaf.count_prog y ops
  | dbInvalid => exact one (answers_then (answers_reply _) fun _ => mute_prim.freeResponse)
  | logCmd process latlong txId command =>
    exact zero (mute_bind (mute_callPtr ((mute_prim.db y).logRpcCommand _ _ _ _ _)) fun _ =>
      CountOn.pure)
  | cliNode process latlong txId command => exact one (answers_runCliNode y _ _ _ _)
  | superMode command => exact one (answers_openShell y command)
  | getTax => exact one (answers_of_mute CountOn.gets fun _ => answers_sendResponse _ _)
  | setLogging level =>
    exact one (answers_controlled (answers_of_mute
      (mute_callPtr (mute_bind (mute_prim.deref level) fun _ => CountOn.modify)) fun _ =>
        answers_sendResponse _ _))
  | getLogging =>
    exact one (answers_controlled (answers_of_mute (mute_callPtr CountOn.gets) fun _ =>
      answers_sendResponse _ _))
  | getLogLevels =>
    exact one (answers_controlled (answers_of_mute (mute_callPtr CountOn.pure) fun _ =>
      answers_sendResponse _ _))
  | listPeers => exact one (answers_controlled answers_sendPeers)
  | shutdown =>
    refine one (answers_controlled (answers_then (answers_sendResponse _ _) fun _ =>
      mute_callPtr (CountOn.skip CountOn.modify fun _ => mute_bind (mute_emit rfl) fun _ => ?_)))
    exact CountOn.ite (fun _ => CountOn.pure) fun _ => CountOn.fail
  | unanswered => exact zero CountOn.pure

/-- **Answered once.** A command that does not crash gets exactly one answer if and
only if its request is one that is answered. -/
theorem answered_once_iff (y : Sys) {w : World} {cmd : Str}
    (hret : ((processCmd y cmd).run w).val = .ok ()) :
    ((processCmd y cmd).run w).out.countP isSend = 1 ↔
      (parseRequest cmd).unanswered? w.sess.ops = false := by
  obtain ⟨s, hs⟩ := processCmd_run y cmd w
  rw [hs] at hret ⊢
  have hcount := count_prog y (parseRequest cmd) w.sess.ops { w with saved := s } rfl () hret
  rw [hcount]
  cases (parseRequest cmd).unanswered? w.sess.ops <;> simp

/-- A new item is answered. -/
theorem answered_once_add :
    ((processCmd quietSys (lit "db,add,items,1,5,10,rice,<$#EOT#$>")).run
      (.before initDataElvt (usersDb []))).out.countP isSend = 1 :=
  (answered_once_iff quietSys (by decide +kernel)).mpr (by decide +kernel)

/-- A default user who updates a user waits for an answer forever. -/
theorem not_answered_once :
    ¬ ∀ (y : Sys) (w : World) (role : Int) (uid : Nat) (cmd : Str),
      mknod role uid = some w.sess → strstr cmd (lit "bye") = false →
      ((processCmd y cmd).run w).val = .ok () →
      ((processCmd y cmd).run w).out.countP isSend = 1 := by
  intro h
  have hone := h quietSys (.before { initDataDflt with uid := 1 } (usersDb [])) dflUsr 0
    (lit "db,update,user,user,userpass,x,<$#EOT#$>") rfl (by decide +kernel) (by decide +kernel)
  revert hone
  decide +kernel

end Thor
