import Thor.Database.Walk

/-!
# What a session may do

A session reaches the operations of the server through its function pointers, and
its template says which of them are set.

- `Granted`, `grants_prog`: what any request does with the pointers it finds.
- `Inert`, `refused_prog`: what a request does whose pointer is not set.
- `honoursRole_iff`: the shell of `super-mode` is not behind a pointer, and it is
  the one way past the templates.
-/

namespace Thor

open CLib Sql Prog

/-! ## Granted runs -/

/-- The pointers are left alone, every pointer called is set, and a shell is opened
only if `shell` allows it. -/
structure Granted (shell : Prop) (w : World) (o : List Event) (w' : World) : Prop where
  ops : w'.sess.ops = w.sess.ops
  invoked : ∀ op args, .invoke op args ∈ o → w.sess.ops op = true
  opened : ∀ c, .openShell c ∈ o → shell

variable {shell : Prop} {ops : Op → Bool}

theorem Granted.composable : Composable (Granted shell) where
  refl w := ⟨rfl, by simp, by simp⟩
  trans h h' :=
    ⟨h'.ops.trans h.ops,
     fun op args hm => (List.mem_append.mp hm).elim (h.invoked op args)
       fun hm => h.ops ▸ h'.invoked op args hm,
     fun c hm => (List.mem_append.mp hm).elim (h.opened c) (h'.opened c)⟩

/-- From a session with the pointers `ops`, `m` does only what it is granted. -/
def Grants (shell : Prop) (ops : Op → Bool) {α : Type} (m : M α) : Prop :=
  RelOn (fun w => w.sess.ops = ops) m (Granted shell)

theorem grants_bind {α β : Type} {m : M α} {f : α → M β} (hm : Grants shell ops m)
    (hf : ∀ a, Grants shell ops (f a)) : Grants shell ops (m >>= f) :=
  RelOn.bindStable Granted.composable (fun h hP => h.ops.trans hP) hm hf

theorem grants_pure {α : Type} (a : α) : Grants shell ops (pure a) :=
  RelOn.pure Granted.composable

theorem grants_gets {α : Type} (f : World → α) : Grants shell ops (gets f) :=
  RelOn.gets Granted.composable

theorem grants_fail {α : Type} (c : Crash) : Grants shell ops (fail c : M α) :=
  RelOn.fail Granted.composable

theorem grants_modify {f : World → World} (h : ∀ w, (f w).sess.ops = w.sess.ops) :
    Grants shell ops (modify f) :=
  RelOn.modify fun w _ => ⟨h w, by simp, by simp⟩

/-- An event that is neither a call through a pointer nor a shell. -/
theorem grants_emit {o : Event} (hinvoke : ∀ op args, o ≠ .invoke op args)
    (hshell : ∀ c, o ≠ .openShell c) : Grants shell ops (emit o) :=
  RelOn.emit fun _ _ =>
    ⟨rfl, fun op args hm => absurd (List.mem_singleton.mp hm).symm (hinvoke op args),
      fun c hm => absurd (List.mem_singleton.mp hm).symm (hshell c)⟩

theorem grants_nextTick : Grants shell ops nextTick := fun _ _ => ⟨rfl, by simp, by simp⟩

/-- A call through a pointer that is set. -/
theorem grants_callPtr {α : Type} {op : Op} {args : List (Option Str)} {body : M α}
    (hset : ops op = true) (h : Grants shell ops body) : Grants shell ops (callPtr op args body) := by
  intro w hw
  have hop : w.sess.ops op = true := by rw [hw, hset]
  have hbody := h w hw
  rw [run_callPtr, if_pos hop]
  refine ⟨hbody.ops, fun op' args' hm => ?_, fun c hm => ?_⟩
  · rcases List.mem_cons.mp hm with heq | hm
    · cases heq
      exact hop
    · exact hbody.invoked op' args' hm
  · rcases List.mem_cons.mp hm with heq | hm
    · cases heq
    · exact hbody.opened c hm

/-- A branch behind a test of its pointer. -/
theorem grants_tested {α : Type} {op : Op} {granted refused : M α}
    (hgranted : ops op = true → Grants shell ops granted) (hrefused : Grants shell ops refused) :
    Grants shell ops (do if ← isSet op then granted else refused) :=
  relOn_tested (fun w hw => hgranted (hw.1 ▸ hw.2) w hw.1) (hrefused.weaken fun _ => And.left)

theorem grants_allocBuf (text : Str) : Grants shell ops (allocBuf text) :=
  grants_bind (grants_gets _) fun _ => grants_bind (grants_modify fun _ => rfl) fun _ =>
    grants_bind (grants_emit (fun _ _ => nofun) fun _ => nofun) fun _ => grants_pure _

theorem grants_down (y : Sys) : Grants shell ops (down y) := by
  refine grants_bind (grants_modify fun _ => rfl) fun _ =>
    grants_bind (grants_emit (fun _ _ => nofun) fun _ => nofun) fun _ => ?_
  split
  · exact grants_pure _
  · exact grants_fail _

/-! ## Granted requests -/

/-- The pointers that are called without a test, which every template sets. -/
structure Basic (ops : Op → Bool) : Prop where
  write : ops .write = true
  close : ops .close = true
  hash : ops .hash = true
  logCmd : ops .logCmd = true

theorem mknod_basic {role : Int} {uid : Nat} {s : Session} (h : mknod role uid = some s) :
    Basic s.ops := by
  rcases mknod_cases h with ⟨-, rfl⟩ | ⟨-, rfl⟩ | ⟨-, rfl⟩ <;> constructor <;> rfl

section Requests

variable (hbasic : Basic ops)

include hbasic

theorem grants_prim : PrimJudgment (Grants shell ops) where
  pure := grants_pure
  bind := grants_bind
  gets := grants_gets
  fail := grants_fail
  tick := grants_nextTick
  emitExec _ := grants_emit (fun _ _ => nofun) fun _ => nofun
  setDb _ := grants_modify fun _ => rfl
  alloc := grants_allocBuf
  emitFree _ := grants_emit (fun _ _ => nofun) fun _ => nofun
  setValue _ := grants_modify fun _ => rfl
  setResponse _ := grants_modify fun _ => rfl
  callHash := grants_callPtr hbasic.hash

theorem grants_sendResponse (fmt : String) (args : List Arg) :
    Grants shell ops (sendResponse fmt args) :=
  grants_bind ((grants_prim hbasic).sprintfInto _ _) fun _ =>
    grants_callPtr hbasic.write (grants_emit (fun _ _ => nofun) fun _ => nofun)

theorem grants_reply (text : String) : Grants shell ops (reply text) :=
  grants_sendResponse hbasic _ _

theorem DbLeaf.grants_prog (y : Sys) (l : DbLeaf) : Grants shell ops (l.prog y) := by
  have hprim : PrimJudgment (Grants shell ops) := grants_prim hbasic
  have hsend : ∀ fmt args, Grants shell ops (sendResponse fmt args) := grants_sendResponse hbasic
  refine grants_bind (grants_tested (fun hset => ?_) (hprim.leafRefused hsend l)) fun _ =>
    grants_bind (hprim.cleanup l) fun _ => hprim.freeResponse
  refine grants_bind (grants_callPtr hset ((hprim.db y).call l)) fun result => ?_
  split
  · exact hprim.leafOk hsend l
  · exact hprim.leafErr hsend l

theorem grants_controlled {op : Op} {granted : M Unit}
    (h : ops op = true → Grants shell ops granted) : Grants shell ops (controlled op granted) :=
  grants_tested h (grants_reply hbasic _)

theorem grants_runProcess (y : Sys) (line : Str) : Grants shell ops (runProcess y line) := by
  have hprim : PrimJudgment (Grants shell ops) := grants_prim hbasic
  refine grants_bind grants_nextTick fun t => ?_
  split
  · refine grants_bind (grants_emit (fun _ _ => nofun) fun _ => nofun) fun _ =>
      grants_bind grants_nextTick fun t => grants_bind (grants_gets _) fun db =>
        grants_bind (grants_modify fun _ => rfl) fun _ => ?_
    cases (y.popen t line db).1 with
    | none => exact grants_fail _
    | some chunks => exact grants_bind (hprim.lift _) fun _ => grants_sendResponse hbasic _ _
  · exact grants_sendResponse hbasic _ _

theorem grants_runCliNode (y : Sys) (process : Option Str) (latlong : Str)
    (txId : Option Str) (command : Str) :
    Grants shell ops (runCliNode y process latlong txId command) := by
  have hprim : PrimJudgment (Grants shell ops) := grants_prim hbasic
  have hexec : Grants shell ops (execRpcCmd y command) :=
    grants_bind (grants_emit (fun _ _ => nofun) fun _ => nofun) fun _ =>
      grants_bind (hprim.sprintfInto _ _) fun _ => grants_runProcess hbasic y _
  refine grants_bind (grants_gets _) fun isLogged => ?_
  split
  · exact grants_bind (grants_callPtr hbasic.logCmd ((hprim.db y).logRpcCommand _ _ _ _ _)) fun _ => hexec
  · exact hexec

theorem grants_sendPeers (hset : ops .list = true) : Grants shell ops sendPeers := by
  have hprim : PrimJudgment (Grants shell ops) := grants_prim hbasic
  refine grants_bind (grants_callPtr hset ?_) fun _ => grants_bind (grants_gets _) fun v => ?_
  · exact grants_bind (grants_allocBuf _) fun _ => grants_bind (hprim.setValue _) fun _ =>
      grants_bind (grants_gets _) fun _ => grants_bind (hprim.sprintfInto _ _) fun _ =>
        hprim.setValue _
  · cases v with
    | none => exact grants_fail _
    | some b => exact grants_bind (grants_sendResponse hbasic _ _) fun _ => hprim.emitFree _

theorem grants_openShell (y : Sys) (command : Option Str) (hshell : shell) :
    Grants shell ops (openShell y command) :=
  grants_bind (RelOn.emit fun w _ => ⟨rfl, by simp, fun _ _ => hshell⟩) fun _ =>
    grants_bind ((grants_prim hbasic).deref _) fun _ =>
      grants_bind ((grants_prim hbasic).sprintfInto _ _) fun _ => grants_runProcess hbasic y _

/-- **What a request does with the pointers.** The shell is opened by a `super-mode`
command, and by nothing else. -/
theorem grants_prog (y : Sys) (r : Request) :
    Grants (∃ c, r = .superMode c) ops (r.prog y) := by
  cases r with
  | bye =>
    refine grants_bind (grants_callPtr hbasic.close ?_) fun _ =>
      grants_emit (fun _ _ => nofun) fun _ => nofun
    exact grants_bind (grants_modify fun _ => rfl) fun _ =>
      grants_emit (fun _ _ => nofun) fun _ => nofun
  | malformed | invalid | underWay => exact grants_reply hbasic _
  | auth => exact grants_sendResponse hbasic _ _
  | crash => exact grants_fail _
  | db leaf => exact leaf.grants_prog hbasic y
  | dbInvalid => exact grants_bind (grants_reply hbasic _) fun _ => (grants_prim hbasic).freeResponse
  | logCmd process latlong txId command =>
    exact grants_bind (grants_callPtr hbasic.logCmd (((grants_prim hbasic).db y).logRpcCommand _ _ _ _ _))
      fun _ => grants_pure _
  | cliNode process latlong txId command => exact grants_runCliNode hbasic y _ _ _ _
  | superMode command => exact grants_openShell hbasic y command ⟨command, rfl⟩
  | getTax => exact grants_bind (grants_gets _) fun _ => grants_sendResponse hbasic _ _
  | setLogging level =>
    refine grants_controlled hbasic fun hset => grants_bind (grants_callPtr hset ?_) fun _ =>
      grants_sendResponse hbasic _ _
    exact grants_bind ((grants_prim hbasic).deref level) fun _ => grants_modify fun _ => rfl
  | getLogging =>
    exact grants_controlled hbasic fun hset =>
      grants_bind (grants_callPtr hset (grants_gets _)) fun _ => grants_sendResponse hbasic _ _
  | getLogLevels =>
    exact grants_controlled hbasic fun hset =>
      grants_bind (grants_callPtr hset (grants_pure _)) fun _ => grants_sendResponse hbasic _ _
  | listPeers => exact grants_controlled hbasic fun hset => grants_sendPeers hbasic hset
  | shutdown =>
    exact grants_controlled hbasic fun hset =>
      grants_bind (grants_sendResponse hbasic _ _) fun _ =>
        grants_callPtr hset (grants_down y)
  | unanswered => exact grants_pure _

end Requests

/-! ## Refused requests -/

/-- The function pointer a request tests before it does what it asks for. -/
def Request.asks : Request → Option Op
  | db leaf => some leaf.op
  | setLogging _ => some .setMode
  | getLogging => some .getMode
  | getLogLevels => some .getAllLevels
  | listPeers => some .list
  | shutdown => some .down
  | _ => none

/-- No operation is run but the one that writes to the client, no child process is
started, and the server stays as it is. -/
structure Inert (w : World) (o : List Event) (w' : World) : Prop where
  srv : w'.srv = w.srv
  invoked : ∀ op args, .invoke op args ∈ o → op = .write
  popen : ∀ line, .popen line ∉ o

theorem Inert.composable : Composable Inert where
  refl w := ⟨rfl, by simp, by simp⟩
  trans h h' :=
    ⟨h'.srv.trans h.srv,
     fun op args hm => (List.mem_append.mp hm).elim (h.invoked op args) (h'.invoked op args),
     fun line hm => (List.mem_append.mp hm).elim (h.popen line) (h'.popen line)⟩

/-- Every run of `m` is inert. -/
def Idles {α : Type} (m : M α) : Prop := Always m Inert

theorem idles_bind {α β : Type} {m : M α} {f : α → M β} (hm : Idles m) (hf : ∀ a, Idles (f a)) :
    Idles (m >>= f) := RelOn.seq Inert.composable hm hf

theorem idles_setSess {f : World → World} (h : ∀ w, (f w).srv = w.srv) : Idles (modify f) :=
  RelOn.modify fun w _ => ⟨h w, by simp, by simp⟩

theorem idles_emitFree (b : Nat) : Idles (emit (.free b)) :=
  RelOn.emit fun _ _ => ⟨rfl, by simp, by simp⟩

theorem idles_freeValue : Idles freeValue := by
  refine idles_bind (RelOn.gets Inert.composable) fun v => ?_
  have hset : Idles (setValue none) := idles_setSess fun _ => rfl
  cases v with
  | none => exact hset
  | some b => exact idles_bind (idles_emitFree b.id) fun _ => hset

theorem idles_freeResponse : Idles freeResponse := by
  refine idles_bind (RelOn.gets Inert.composable) fun v => ?_
  cases v with
  | none => exact RelOn.pure Inert.composable
  | some b => exact idles_bind (idles_emitFree b.id) fun _ => idles_setSess fun _ => rfl

theorem idles_sendResponse (fmt : String) (args : List Arg) : Idles (sendResponse fmt args) := by
  refine idles_bind ?_ fun payload w _ => ?_
  · unfold sprintfInto
    exact RelOn.ite (fun _ => RelOn.pure Inert.composable) fun _ => RelOn.fail Inert.composable
  · rw [run_callPtr]
    split <;> constructor <;> simp

theorem DbLeaf.idles_refused (l : DbLeaf) : Idles l.refused := by
  cases l with
  | updateUsr | updateImage => exact RelOn.pure Inert.composable
  | _ => exact idles_sendResponse _ _

theorem DbLeaf.idles_cleanup (l : DbLeaf) : Idles l.cleanup := by
  cases l with
  | addItem | dltItem | updateItem | getAllItems =>
    exact idles_bind idles_freeValue fun _ => idles_setSess fun _ => rfl
  | getAllUsers | getImage | getAllImages => exact idles_freeValue
  | _ => exact RelOn.pure Inert.composable

/-- A branch whose pointer is not set. -/
theorem idles_tested {op : Op} {granted refused : M Unit} (h : Idles refused) :
    RelOn (fun w => w.sess.ops op = false) (do if ← isSet op then granted else refused) Inert :=
  relOn_tested (fun _ hw => absurd hw.2 (by simp [hw.1])) (h.weaken fun _ _ => trivial)

/-- **Refused.** A request whose pointer is not set runs no operation. -/
theorem refused_prog (y : Sys) {r : Request} {op : Op} (hasks : r.asks = some op) :
    RelOn (fun w => w.sess.ops op = false) (r.prog y) Inert := by
  cases r with
  | db leaf =>
    cases hasks
    exact RelOn.seq Inert.composable (idles_tested leaf.idles_refused) fun _ =>
      idles_bind leaf.idles_cleanup fun _ => idles_freeResponse
  | setLogging | getLogging | getLogLevels | listPeers | shutdown =>
    cases hasks
    exact idles_tested (idles_sendResponse _ _)
  | _ => cases hasks

/-! ## The templates are honoured -/

/-- What the template of a role promises of a command processed from `w`. -/
structure HonoursRole (y : Sys) (role : Int) (cmd : Str) (w : World) : Prop where
  invoked : ∀ op args, .invoke op args ∈ ((processCmd y cmd).run w).out → w.sess.ops op = true
  refused : ∀ op, (parseRequest cmd).asks = some op → w.sess.ops op = false →
    Inert w ((processCmd y cmd).run w).out ((processCmd y cmd).run w).state
  shell : ∀ c, .openShell c ∈ ((processCmd y cmd).run w).out → role = rootUsr

theorem openShell_opens (y : Sys) (command : Option Str) (w : World) :
    .openShell command ∈ ((openShell y command).run w).out := by
  unfold openShell
  rw [run_bind_of_ok (a := ()) rfl]
  exact List.mem_append_left _ (List.mem_singleton_self _)

/-- **The templates are honoured** by every command but `super-mode`, which is
honoured for a root session only. -/
theorem honoursRole_iff (y : Sys) {role : Int} {uid : Nat} {s : Session} {w : World} (cmd : Str)
    (hmk : mknod role uid = some s) (hops : w.sess.ops = s.ops) :
    HonoursRole y role cmd w ↔ role = rootUsr ∨ ∀ c, parseRequest cmd ≠ .superMode c := by
  obtain ⟨saved, hrun⟩ := processCmd_run y cmd w
  have hgranted := grants_prog (mknod_basic hmk) y (parseRequest cmd) { w with saved } hops
  constructor
  · intro h
    by_cases hrole : role = rootUsr
    · exact .inl hrole
    · refine .inr fun c hc => hrole (h.shell c ?_)
      rw [hrun, hc]
      exact openShell_opens y c _
  · intro h
    refine ⟨fun op args hm => ?_, fun op hasks hop => ?_, fun c hm => ?_⟩
    · rw [hrun] at hm
      exact hgranted.invoked op args hm
    · have hinert := refused_prog y hasks { w with saved } hop
      rw [hrun]
      exact ⟨hinert.srv, hinert.invoked, hinert.popen⟩
    · rw [hrun] at hm
      obtain ⟨c', hc'⟩ := hgranted.opened c hm
      exact h.elim id fun hno => absurd hc' (hno c')

/-- A default user's attempt to shut the server down is refused. -/
theorem honoursRole_dflt :
    HonoursRole quietSys dflUsr (lit "control,shutdown,<$#EOT#$>")
      (.before { initDataDflt with uid := 1 } (usersDb [])) :=
  (honoursRole_iff quietSys _ (show mknod dflUsr 0 = some _ from rfl) rfl).mpr
    (.inr (by
      have h : parseRequest (lit "control,shutdown,<$#EOT#$>") = .shutdown := by decide +kernel
      rw [h]
      exact fun c => nofun))

/-- A default user gets a shell. -/
theorem not_honoursRole :
    ¬ ∀ (y : Sys) (role : Int) (uid : Nat) (s : Session) (w : World) (cmd : Str),
      mknod role uid = some s → w.sess.ops = s.ops → HonoursRole y role cmd w := by
  intro h
  have hshell := (h quietSys dflUsr 0 _ (.before { initDataDflt with uid := 1 } (usersDb []))
    (lit "rpc-cmd,super-mode,[ id ],<$#EOT#$>") rfl rfl).shell (some (lit "[ id ]"))
    (by decide +kernel)
  revert hshell
  decide

end Thor
