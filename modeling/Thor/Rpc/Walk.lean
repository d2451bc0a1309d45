import Thor.Database.Walk

/-!
# Properties of every request

As `Database.Walk` for the functions of `database/`: a property of programs that is
kept by sequencing holds of every request as soon as it holds of the primitive
operations a request is made of. Two requests stand apart, the only ones that call
`ssl_tls.close` and set the state of the process (`bye` and `shutdown`), and so do the
two events that say a command is about to be run.

- `ReplyJudgment`: the primitive operations that leave the database alone.
  `ReplyJudgment.prog` is about every request, given the parts that do not.
- `CmdJudgment`: besides, a database that changes in any way.
-/

namespace Thor

open CLib Sql Prog

/-- The end of the session, and the start of a command. -/
def Event.marked : Event → Bool
  | closeClient | freeIp | openShell _ | execRpcCmd _ => true
  | _ => false

/-- A property of programs that is kept by sequencing and that the primitive
operations of a request have, but for the marked events and what is done to the database. -/
structure ReplyJudgment (Φ : {α : Type} → M α → Prop) : Prop where
  pure : ∀ {α : Type} (a : α), Φ (pure a)
  bind : ∀ {α β : Type} {m : M α} {f : α → M β}, Φ m → (∀ a, Φ (f a)) → Φ (m >>= f)
  gets : ∀ {α : Type} (f : World → α), Φ (gets f)
  fail : ∀ {α : Type} (c : Crash), Φ (fail c : M α)
  tick : Φ nextTick
  alloc : ∀ text, Φ (allocBuf text)
  setValue : ∀ b, Φ (setValue b)
  setResponse : ∀ b, Φ (setResponse b)
  setLevel : ∀ level, Φ (modify fun w => { w with srv := { w.srv with level := level } })
  emit : ∀ {o : Event}, o.marked = false → (∀ op args, o ≠ .invoke op args) → Φ (emit o)
  call : ∀ {α : Type} {op : Op} {args : List (Option Str)} {body : M α}, op ≠ .close →
    Φ body → Φ (callPtr op args body)

/-- Besides, the database may change. -/
structure CmdJudgment (Φ : {α : Type} → M α → Prop) : Prop extends ReplyJudgment Φ where
  setDb : ∀ db, Φ (modify fun w => { w with srv := { w.srv with db := db } })

theorem DbLeaf.op_ne_close (l : DbLeaf) : l.op ≠ .close := by
  cases l <;> exact nofun

namespace ReplyJudgment

variable {Φ : {α : Type} → M α → Prop} (h : ReplyJudgment Φ) (y : Sys)

include h

theorem session : LocalJudgment Φ where
  pure := h.pure
  bind := h.bind
  gets := h.gets
  fail := h.fail
  tick := h.tick
  alloc := h.alloc
  emitFree _ := h.emit rfl fun _ _ => nofun
  setValue := h.setValue
  setResponse := h.setResponse
  callHash := h.call nofun

/-! ## Replies -/

theorem sendResponse (fmt : String) (args : List Arg) : Φ (sendResponse fmt args) :=
  h.bind (h.session.sprintfInto _ _) fun _ => h.call nofun (h.emit rfl fun _ _ => nofun)

theorem reply (text : String) : Φ (reply text) := h.sendResponse _ _

theorem tested {α : Type} {op : Op} {m m' : M α} (hm : Φ m) (hm' : Φ m') :
    Φ (do if ← isSet op then m else m') := by
  refine h.bind (h.gets _) fun b => ?_
  split
  · exact hm
  · exact hm'

theorem controlled {op : Op} {granted : M Unit} (hgranted : Φ granted) :
    Φ (controlled op granted) :=
  h.tested hgranted (h.reply _)

theorem sendPeers : Φ sendPeers := by
  refine h.bind (h.call nofun ?_) fun _ => h.bind (h.gets _) fun v => ?_
  · exact h.bind (h.alloc _) fun _ => h.bind (h.setValue _) fun _ =>
      h.bind (h.gets _) fun _ => h.bind (h.session.sprintfInto _ _) fun _ => h.setValue _
  · cases v with
    | none => exact h.fail _
    | some b => exact h.bind (h.sendResponse _ _) fun _ => h.emit rfl fun _ _ => nofun

/-! ## Requests -/

/-- What a leaf does behind its call. -/
theorem answer (l : DbLeaf) (result : Int) : Φ (if result = 0 then l.ok else l.err) := by
  split
  · exact h.session.leafOk h.sendResponse l
  · exact h.session.leafErr h.sendResponse l

theorem leaf {l : DbLeaf} (hcall : Φ (l.call y)) : Φ (l.prog y) :=
  h.bind (h.tested (h.bind (h.call l.op_ne_close hcall) (h.answer l))
    (h.session.leafRefused h.sendResponse l)) fun _ =>
      h.bind (h.session.cleanup l) fun _ => h.session.freeResponse

/-- **Every request**, given what is special to some of them. -/
theorem prog {r : Request} (hbye : r = .bye → Φ (Request.bye.prog y))
    (hdown : r = .shutdown → Φ (Thor.down y))
    (hexec : ∀ p l t c, r = .cliNode p l t c → Φ (Prog.emit (.execRpcCmd c)))
    (hshell : ∀ c, r = .superMode c → Φ (Prog.emit (.openShell c)))
    (hdb : ∀ l, r = .db l → Φ (l.prog y))
    (hlog : ∀ p l t c, r = .logCmd p l t c → Φ (logRpcCommand y .reqd p c (some l) t))
    (hauto : ∀ p l t c, r = .cliNode p l t c → Φ (logRpcCommand y .auto p (some c) (some l) t))
    (hrun : ∀ line, Φ (runProcess y line)) : Φ (r.prog y) := by
  cases r with
  | bye => exact hbye rfl
  | malformed | invalid | underWay => exact h.reply _
  | auth => exact h.sendResponse _ _
  | crash => exact h.fail _
  | db leaf => exact hdb leaf rfl
  | dbInvalid => exact h.bind (h.reply _) fun _ => h.session.freeResponse
  | logCmd process latlong txId command =>
    exact h.bind (h.call nofun (hlog _ _ _ _ rfl)) fun _ => h.pure ()
  | cliNode process latlong txId command =>
    have hchild : Φ (execRpcCmd y command) :=
      h.bind (hexec _ _ _ _ rfl) fun _ => h.bind (h.session.sprintfInto _ _) fun _ => hrun _
    refine h.bind (h.gets _) fun isLogged => ?_
    split
    · exact h.bind (h.call nofun (hauto _ _ _ _ rfl)) fun _ => hchild
    · exact hchild
  | superMode command =>
    exact h.bind (hshell _ rfl) fun _ => h.bind (h.session.deref _) fun _ =>
      h.bind (h.session.sprintfInto _ _) fun _ => hrun _
  | getTax => exact h.bind (h.gets _) fun _ => h.sendResponse _ _
  | setLogging level =>
    refine h.controlled (h.bind (h.call nofun (h.bind (h.session.deref _) fun _ => ?_)) fun _ =>
      h.sendResponse _ _)
    exact h.setLevel _
  | getLogging =>
    exact h.controlled (h.bind (h.call nofun (h.gets _)) fun _ => h.sendResponse _ _)
  | getLogLevels =>
    exact h.controlled (h.bind (h.call nofun (h.pure _)) fun _ => h.sendResponse _ _)
  | listPeers => exact h.controlled h.sendPeers
  | shutdown =>
    exact h.controlled (h.bind (h.sendResponse _ _) fun _ => h.call nofun (hdown rfl))
  | unanswered => exact h.pure ()

end ReplyJudgment

namespace CmdJudgment

variable {Φ : {α : Type} → M α → Prop} (h : CmdJudgment Φ) (y : Sys)

include h

theorem prim : PrimJudgment Φ where
  toLocalJudgment := h.session
  emitExec _ := h.emit rfl fun _ _ => nofun
  setDb := h.setDb

theorem leaf (l : DbLeaf) : Φ (l.prog y) := h.toReplyJudgment.leaf y ((h.prim.db y).call l)

theorem runProcess (line : Str) : Φ (runProcess y line) := by
  refine h.bind h.tick fun t => ?_
  split
  · refine h.bind (h.emit rfl fun _ _ => nofun) fun _ => h.bind h.tick fun t =>
      h.bind (h.gets _) fun db => h.bind (h.setDb _) fun _ => ?_
    cases (y.popen t line db).1 with
    | none => exact h.fail _
    | some chunks => exact h.bind (h.prim.lift _) fun _ => h.sendResponse _ _
  · exact h.sendResponse _ _

/-- Every request, when nothing depends on what becomes of the database. -/
theorem prog {r : Request} (hbye : r = .bye → Φ (Request.bye.prog y))
    (hdown : r = .shutdown → Φ (Thor.down y))
    (hexec : ∀ p l t c, r = .cliNode p l t c → Φ (Prog.emit (.execRpcCmd c)))
    (hshell : ∀ c, r = .superMode c → Φ (Prog.emit (.openShell c))) : Φ (r.prog y) :=
  h.toReplyJudgment.prog y hbye hdown hexec hshell (fun l _ => h.leaf y l)
    (fun _ _ _ _ _ => (h.prim.db y).logRpcCommand _ _ _ _ _)
    (fun _ _ _ _ _ => (h.prim.db y).logRpcCommand _ _ _ _ _) (h.runProcess y)

end CmdJudgment

end Thor
