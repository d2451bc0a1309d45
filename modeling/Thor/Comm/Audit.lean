import Thor.Comm.Shutdown
import Thor.Database.Lengths
import Thor.Rpc.NodeArgs
import Thor.Rpc.Replies
import Thor.Security.AuthMessage

/-!
# The audit log

A session logs its `cli-node` commands if the byte stored at its login is not `0`. The byte
is what is left of an `int`, the text of the insert is made of the fields of the command,
and the command is executed whatever has become of the insert.

- `autoEntries`: the log, as a list of transactions and commands.
- `autoEntries_runCliNode`: what one command adds to it.
- `popened_bracketed`: the line that a command in brackets opens.
- `audited`: the log has a row for every line that was executed, as long as the byte is
  not `0`, every insert goes through, and the commands stand in brackets.
-/

namespace Thor

open CLib Sql Prog

/-! ## Rows of the log -/

def logTypeCol : Str := lit "LogType"
def txIdCol : Str := lit "TxId"
def stackTraceCol : Str := lit "StackTrace"

/-- The transactions and the commands in the rows of type `AUTO`. -/
def autoEntries (db : Db) : List (Value × Value) :=
  ((db logsTable).rows.filter fun r => decide (r logTypeCol = .text LogType.auto.text)).map
    fun r => (r txIdCol, r stackTraceCol)

theorem autoEntries_congr {db db' : Db} (h : db' logsTable = db logsTable) :
    autoEntries db' = autoEntries db := by
  unfold autoEntries
  rw [h]

variable {y : Sys}

/-- The insert makes a row of its own. -/
theorem execStmt_log (ip : IpText) (port : Int) (uid now : Nat) (type : LogType)
    (process command latlong txId : Str) (db : Db) :
    ∃ r : Row, r logTypeCol = .text type.text ∧ r txIdCol = .text txId ∧
      r stackTraceCol = .text command ∧
      y.engine.execStmt catalog
          (Built.stmt y (.logRpcCommand ip port uid now type process command latlong txId)) db =
        ⟨Function.update db logsTable
          ⟨(db logsTable).rows ++ [r], (db logsTable).nextKey idCol⟩, [], none⟩ := by
  have hinsert := @Engine.execStmt_insert y.engine catalog db transactionLogs logsTable
    [lit "User", lit "UserId", lit "Epoch", lit "Process", lit "LogType", lit "LatLong",
      lit "TxId", lit "StackTrace"]
    [.str (ip ++ lit ":" ++ fmtD port), .str (fmtD (toInt32 uid)), .int now, .str process,
      .str type.text, .str latlong, .str txId, .str command] rfl rfl rfl
  refine ⟨_, ?_, ?_, ?_, hinsert.trans (if_neg ?_)⟩
  · rfl
  · rfl
  · rfl
  · -- no column but the key has to be unique
    intro hany
    obtain ⟨r', -, hclash⟩ := List.any_eq_true.mp hany
    exact Bool.false_ne_true hclash

/-! ## One command -/

/-- The insert of a command, its fields without quotes. -/
theorem autoEntries_log {process command latlong txId : Option Str} {w : World} {r : Int}
    (hq : ∀ f ∈ [fmtS process, fmtS latlong, fmtS txId, fmtS command], QuoteFree f)
    (hfault : y.fault (w.tick + 1) = none)
    (hval : ((logRpcCommand y .auto process command latlong txId).run w).val = .ok r) :
    autoEntries ((logRpcCommand y .auto process command latlong txId).run w).state.srv.db
      = autoEntries w.srv.db ++ [(.text (fmtS txId), .text (fmtS command))] := by
  -- a text that does not fit stops the run, and this one has returned
  have hlen : (logSql y w .auto process command latlong txId).length < 8000 := by
    by_contra hlen
    have hover := logRpcCommand_returns y .auto process command latlong txId w
    rw [if_neg hlen, hval] at hover
    cases hover
  have htime := y.time_lt w.tick
  have hexec := (Built.logRpcCommand w.sess.ip w.sess.port w.sess.uid (y.time w.tick) .auto
    (fmtS process) (fmtS command) (fmtS latlong) (fmtS txId)).exec_eq y hq
    (fun i hi => by rw [List.mem_singleton.mp hi]; exact if_pos (by omega)) w.srv.db
  obtain ⟨row, htype, htx, htrace, heffect⟩ := @execStmt_log y w.sess.ip w.sess.port w.sess.uid
    (y.time w.tick) .auto (fmtS process) (fmtS command) (fmtS latlong) (fmtS txId) w.srv.db
  have hdb : ((logRpcCommand y .auto process command latlong txId).run w).state.srv.db
      = Function.update w.srv.db logsTable
        ⟨(w.srv.db logsTable).rows ++ [row], (w.srv.db logsTable).nextKey idCol⟩ := by
    rw [run_logRpcCommand]
    exact (db_runStatement (w := { w with tick := w.tick + 1 }) hlen hfault).trans
      (congrArg Result.db (hexec.trans heffect))
  unfold autoEntries
  rw [hdb, Function.update_self, List.filter_append, List.map_append]
  simp [htype, htx, htrace]

/-- **A command** that is logged adds its entry to the log, whether it is executed or not. -/
theorem autoEntries_runCliNode (hchild : ChildrenKeep y logsTable) {process txId : Option Str}
    {latlong command : Str} {w : World} {u : Unit} (hset : w.sess.ops .logCmd = true)
    (hlogged : w.sess.isLogged ≠ 0)
    (hq : ∀ f ∈ [fmtS process, latlong, fmtS txId, command], QuoteFree f)
    (hfault : y.fault (w.tick + 1) = none)
    (hval : ((runCliNode y process latlong txId command).run w).val = .ok u) :
    autoEntries ((runCliNode y process latlong txId command).run w).state.srv.db
      = autoEntries w.srv.db ++ [(.text (fmtS txId), .text command)] := by
  have hreply := @tableKept_reply logsTable
  have hexec : Always (execRpcCmd y command) (TableKept logsTable) :=
    hreply.bind (fun _ _ => rfl) fun _ => hreply.bind (hreply.session.sprintfInto _ _) fun _ =>
      tableKept_runProcess hchild _
  have hlog := fun r => @autoEntries_log y process (some command) (some latlong) txId w r hq hfault
  have hcall := run_callPtr .logCmd [process, some command, some latlong, txId]
    (logRpcCommand y .auto process (some command) (some latlong) txId) w
  rw [if_pos hset] at hcall
  unfold runCliNode at hval ⊢
  rw [run_bind_of_ok (a := w.sess.isLogged) rfl, run_gets] at hval ⊢
  dsimp only at hval ⊢
  -- the call before `popen` makes the entry, and the child leaves the log alone
  generalize logRpcCommand y .auto process (some command) (some latlong) txId = log at *
  rw [if_pos hlogged] at hval ⊢
  obtain ⟨r, hr, -⟩ := bind_val_ok hval
  rw [run_bind_of_ok hr]
  rw [hcall] at hr ⊢
  exact (autoEntries_congr (hexec _ trivial)).trans (hlog r hr)

/-! ## Commands of a session -/

variable (y)

/-- A command processed in the session that is being served. -/
def sessionStep (w : World) (cmd : Str) : Option World :=
  match ((processCmd y cmd).run w).val with
  | .ok _ => some ((processCmd y cmd).run w).state
  | .error _ => none

/-- An `rpc-cmd,cli-node` command. -/
def IsCliNode (cmd : Str) : Prop :=
  findCmd (field cmd 0) = some .rpccmd ∧ findCmd (field cmd 1) = some .clinode

instance (cmd : Str) : Decidable (IsCliNode cmd) := inferInstanceAs (Decidable (_ ∧ _))

/-- The lines that have reached `popen`, each with the transaction given. -/
def executed (h : List (Str × Str)) (w : World) (cmd : Str) : List (Str × Str) :=
  h ++ (popened ((processCmd y cmd).run w).out).map fun line => (fmtS (field cmd 3), line)

/-- The entry is for the line: its transaction is the one given, and its command is in
brackets what `lightning-cli` is run with. -/
def IsEntryOf (e : Str × Str) (entry : Value × Value) : Prop :=
  entry.1 = .text e.1 ∧ ∃ args, entry.2 = .text ('[' :: args ++ [']']) ∧
    e.2 = lit "lightning-cli " ++ ' ' :: args

/-- The log has rows of type `AUTO` for the lines executed, one for each, in their order. -/
def Audited (p : List (Str × Str) × World) : Prop :=
  ∃ entries, List.Forall₂ IsEntryOf p.1 entries ∧ entries.Sublist (autoEntries p.2.srv.db)

/-- The command is logged as it is run: no field has a quote, the database answers the
insert, and the command is in brackets. -/
def InsertsRow (p : List (Str × Str) × World) (cmd : Str) : Prop :=
  IsCliNode cmd ∧ ∀ process latlong txId command,
    parseRequest cmd = .cliNode process latlong txId command →
      (∀ f ∈ [fmtS process, latlong, fmtS txId, command], QuoteFree f) ∧
        y.fault (p.2.tick + 1) = none ∧ ∃ args, command = '[' :: args ++ [']']

variable {y}

theorem sessionStep_some {w w' : World} {cmd : Str} (h : sessionStep y w cmd = some w') :
    (∃ u, ((processCmd y cmd).run w).val = .ok u) ∧ w' = ((processCmd y cmd).run w).state := by
  unfold sessionStep at h
  split at h
  · next u hu => exact ⟨⟨u, hu⟩, (Option.some.inj h).symm⟩
  · cases h

theorem parseCliNode_cases (process latlong txId : Option Str) (rest : Str) :
    parseCliNode process latlong txId rest = .crash ∨
      ∃ l c, parseCliNode process latlong txId rest = .cliNode process l txId c := by
  unfold parseCliNode
  split
  · exact .inr ⟨_, _, rfl⟩
  · exact .inl rfl

/-- The requests of `cli-node` commands. -/
theorem IsCliNode.request {cmd : Str} (h : IsCliNode cmd) :
    parseRequest cmd ∈ [.bye, .malformed, .crash] ∨ ∃ latlong command,
      parseRequest cmd = .cliNode (field cmd 1) latlong (field cmd 3) command := by
  obtain ⟨hverb, hprocess⟩ := h
  unfold parseRequest
  rw [hverb]
  split
  · exact .inl (by simp)
  · split
    · have hcli : parseRpcCmd cmd (findCmd (field cmd 1))
          = parseCliNode (field cmd 1) (field cmd 2) (field cmd 3) (strtokRest comma 4 cmd) := by
        rw [hprocess]
        rfl
      dsimp only
      rw [hcli]
      rcases parseCliNode_cases (field cmd 1) (field cmd 2) (field cmd 3) (strtokRest comma 4 cmd)
        with hcrash | ⟨l, c, hparse⟩
      · exact .inl (by simp [hcrash])
      · exact .inr ⟨l, c, hparse⟩
    · exact .inl (by simp)

/-- A text with a command in it is longer than the command. -/
theorem length_command_le (process latlong txId : Option Str) (command : Str) (w : World) :
    command.length ≤ (logSql y w .auto process (some command) latlong txId).length := by
  let b := Built.logRpcCommand w.sess.ip w.sess.port w.sess.uid (y.time w.tick) .auto
    (fmtS process) command (fmtS latlong) (fmtS txId)
  have hfill : (logSql y w .auto process (some command) latlong txId).length =
      b.template.fixed + (b.literals y).flatten.length := by
    rw [← Template.length_fill _ (b.length_literals y), ← b.text_eq]
    rfl
  have hmem : command.length ≤ (b.literals y).flatten.length :=
    (List.sublist_flatten_of_mem (by simp [b, Built.literals])).length_le
  omega

/-- The line of a command in brackets, if it gets that far on a session that logs: what
stands between the brackets, behind two blanks. -/
theorem popened_bracketed {w : World} (hset : w.sess.ops .logCmd = true)
    (hlogged : w.sess.isLogged ≠ 0) (process : Option Str) (latlong : Str) (txId : Option Str)
    (args : Str) :
    popened ((runCliNode y process latlong txId ('[' :: args ++ [']'])).run w).out = [] ∨
      popened ((runCliNode y process latlong txId ('[' :: args ++ [']'])).run w).out =
        [lit "lightning-cli " ++ ' ' :: args] := by
  have hline := popened_runCliNode y hset process latlong txId
    (show '[' :: args ++ [']'] ≠ [] from List.cons_ne_nil _ _)
  rw [hline]
  split
  · next hgoes =>
    -- what fits the insert is shorter than the longest command
    unfold cliNodeGoes at hgoes
    rw [if_neg hlogged] at hgoes
    have hlen := length_command_le (y := y) process (some latlong) txId ('[' :: args ++ [']']) w
    have hcommand : ('[' :: args ++ [']']).length = args.length + 1 + 1 := by simp
    have hstrnlen : strnlen ('[' :: args ++ [']']) (kb 700) = args.length + 1 + 1 := by
      rw [strnlen, hcommand, Nat.min_eq_left]
      rw [hcommand] at hlen
      have := hgoes.1
      rw [kb]
      omega
    rw [hstrnlen, cutBrackets]
    right
    simp
  · exact .inl rfl

/-- A session that logs its commands. -/
def LogsCommands (w : World) : Prop := w.sess.ops .logCmd = true ∧ w.sess.isLogged ≠ 0

/-- **One command**: the log keeps up with what is executed. -/
theorem audited_step (hchild : ChildrenKeep y logsTable) {p p' : List (Str × Str) × World}
    {cmd : Str} (hp : LogsCommands p.2 ∧ Audited p) (hcmd : InsertsRow y p cmd)
    (h : recorded (executed y) (sessionStep y) p cmd = some p') : LogsCommands p'.2 ∧ Audited p' := by
  obtain ⟨hlogs, entries, hentries, hsub⟩ := hp
  obtain ⟨hiscli, hinsert⟩ := hcmd
  obtain ⟨hrec, hstep⟩ := recorded_some h
  obtain ⟨⟨u, hval⟩, hstate⟩ := sessionStep_some hstep
  obtain ⟨saved, hrun⟩ := processCmd_run y cmd p.2
  have hkept := (parseRequest cmd).sessionKept y { p.2 with saved } trivial
  rw [← hrun, ← hstate] at hkept
  refine ⟨⟨?_, ?_⟩, ?_⟩
  · rw [hkept.ops]
    exact hlogs.1
  · rw [hkept.isLogged]
    exact hlogs.2
  rw [executed, hrun] at hrec
  rw [hrun] at hstate
  rcases hiscli.request with hreq | ⟨l, c, hreq⟩
  · -- without a child process the record stays, and so does the log
    simp only [List.mem_cons, List.not_mem_nil, or_false] at hreq
    have hquiet : Always ((parseRequest cmd).prog y) Childless ∧
        Always ((parseRequest cmd).prog y) DbKept := by
      rcases hreq with hreq | hreq | hreq
      · rw [hreq]
        exact ⟨childless_bye y, dbKept_bye⟩
      · rw [hreq]
        exact ⟨childless_sendResponse _ _, dbKept_reply.reply _⟩
      · rw [hreq]
        exact ⟨childless_prim.fail _, dbKept_reply.fail _⟩
    have hnone : popened _ = [] := hquiet.1 { p.2 with saved } trivial
    have hdb : p'.2.srv.db = p.2.srv.db := by
      rw [hstate]
      exact hquiet.2 { p.2 with saved } trivial
    rw [hnone, List.map_nil, List.append_nil] at hrec
    rw [Audited, hrec, hdb]
    exact ⟨entries, hentries, hsub⟩
  · obtain ⟨hq, hfault, args, rfl⟩ := hinsert _ l _ c hreq
    rw [hrun, hreq] at hval
    rw [hreq] at hrec hstate
    have hentry := autoEntries_runCliNode (w := { p.2 with saved }) hchild hlogs.1 hlogs.2 hq
      hfault hval
    have hdb : autoEntries p'.2.srv.db = autoEntries p.2.srv.db ++
        [(.text (fmtS (field cmd 3)), .text ('[' :: args ++ [']']))] := by
      rw [hstate]
      exact hentry
    change p'.1 = p.1 ++ (popened ((runCliNode y _ l _ _).run { p.2 with saved }).out).map _ at hrec
    rw [Audited, hdb, hrec]
    rcases popened_bracketed (y := y) (w := { p.2 with saved }) hlogs.1 hlogs.2 (field cmd 1) l
      (field cmd 3) args with hline | hline
    · -- the entry is there also when the command has not got to `popen`
      refine ⟨entries, ?_, hsub.trans (List.sublist_append_left _ _)⟩
      rw [hline, List.map_nil, List.append_nil]
      exact hentries
    · refine ⟨entries ++ [(.text (fmtS (field cmd 3)), .text ('[' :: args ++ [']']))], ?_,
        hsub.append_right _⟩
      rw [hline]
      exact List.rel_append hentries (.cons ⟨rfl, args, rfl, rfl⟩ .nil)

variable (y)

/-! ## The byte stored at a login -/

def isLoggedCol : Str := lit "IsLogged"

/-- The rows of a name, in the order the query of `__is_logged` visits them. -/
def nameRows (db : Db) (name : Str) : List Row :=
  y.engine.scan userInformation (Built.stmt y (.isLogged name))
    ((db userTable).rows.filter fun r => decide (r userNameCol = .text name))

/-- The value stored under `IsLogged`, as `atoi` reads it: the last one, or 1. -/
def storedLogging (db : Db) (name : Str) : Int :=
  (nameRows y db name).foldl (fun m r => ((r isLoggedCol).render.map atoi).getD m) 1

variable {y}

theorem exec_isLogged {name : Str} (hq : QuoteFree name) (db : Db) :
    y.engine.exec catalog (isLoggedSql name) db =
      ⟨db, (nameRows y db name).map fun r => [(isLoggedCol, (r isLoggedCol).render)], none⟩ := by
  have hexec := (Built.isLogged name).exec_eq y (by simpa [Built.asGiven] using hq)
    (fun _ => nofun) db
  refine hexec.trans ?_
  have hhits : y.engine.hits catalog db userInformation
      (.eq (.col userNameCol) (.lit (.str name))) = fun r => decide (r userNameCol = .text name) := by
    funext r
    rw [Bool.eq_iff_iff, decide_eq_true_iff]
    exact Engine.hits_text (show _ = some (textColumn "UserName") from rfl) rfl
  show Engine.effect y.engine catalog db userInformation (Built.stmt y (.isLogged name)) = _
  unfold nameRows
  rw [← hhits]
  rfl

/-- `__is_logged`, as a function of the users table. -/
theorem isLogged_val {name : Str} (hq : QuoteFree name) (hlen : (isLoggedSql name).length < 128)
    (w : World) : ((isLogged y (some name)).run w).val = .ok (if (y.fault w.tick).isSome then 1
      else (storedLogging y w.srv.db name % 256).toNat) := by
  have hexec := run_sqlite3Exec y (isLoggedSql name) lastInt 1 w
  unfold isLogged
  rw [fmtS_some, run_bind_of_run (run_sprintfInto_of_fits hlen w)]
  cases hfault : y.fault w.tick with
  | some fault =>
    rw [hfault] at hexec
    rw [run_bind_of_run hexec]
    rfl
  | none =>
    rw [hfault, exec_isLogged hq] at hexec
    rw [run_bind_of_run hexec]
    dsimp only
    rw [foldl_lastInt]
    rfl

/-- The byte that a login leaves behind. -/
theorem System.authRun_logBit {s : System} {buf id pass : Str} {mode : Int} {bit : Option Nat}
    (hmsg : authMessage buf = .named id pass) (hq : QuoteFree (removeEscape id))
    (h : (s.authRun y buf).val = .ok (mode, bit)) :
    bit = some (if (y.fault s.tick).isSome then 1
      else (storedLogging y s.srv.db (removeEscape id) % 256).toNat) := by
  obtain ⟨saved, hparse⟩ := authParse_run y buf (s.world initDataRoot)
  unfold System.authRun at h
  rw [authParse_eq] at h
  obtain ⟨found, hfound, hrole⟩ := bind_val_ok h
  rw [hparse, hmsg] at hfound
  -- the byte is that of `__is_logged`, whatever the rest finds
  have hsame : bit = found.2 := by
    obtain ⟨_ | ⟨name, pass⟩, logBit⟩ := found
    · cases hrole
      rfl
    · obtain ⟨mode', -, hpure⟩ := bind_val_ok hrole
      cases hpure
      rfl
  obtain ⟨n, hn, hrest⟩ := bind_val_ok hfound
  have hbyte : found.2 = some n := by
    split at hrest <;> cases hrest <;> rfl
  by_cases hlen : (isLoggedSql (removeEscape id)).length < 128
  · rw [isLogged_val hq hlen] at hn
    rw [hsame, hbyte, ← Except.ok.inj hn]
    rfl
  · rw [isLogged_overflow y hlen] at hn
    cases hn

/-- The session of a client that has been authenticated. -/
theorem System.authenticate_granted {s s' : System} {buf : Str} {c : Client}
    (h : s.authenticate y buf = some s') (hc : s'.accepting = .granted c) :
    ∃ mode bit sess, (s.authRun y buf).val = .ok (mode, bit) ∧ mknod mode s.uid = some sess ∧
      c.sess.ops = sess.ops ∧ c.sess.isLogged = bit.getD s.logBit := by
  unfold System.authenticate at h
  split at h
  · next p mode bit hat hval =>
    dsimp only at h
    split at h
    · next sess hsess =>
      cases h
      cases hc
      exact ⟨mode, bit, sess, hval, hsess, rfl, rfl⟩
    · cases h
      cases hc
  · cases h

/-! ## Runs -/

/-- **The log is complete** in every state of a session whose stored value leaves a byte
other than `0`, as long as every insert goes through. -/
theorem audited (hchild : ChildrenKeep y logsTable) {s s' : System} {c : Client}
    {buf id pass : Str} {cmds : List Str} (hlogin : s.authenticate y buf = some s')
    (hc : s'.accepting = .granted c) (hmsg : authMessage buf = .named id pass)
    (hq : QuoteFree (removeEscape id))
    (hbyte : y.fault s.tick = none → storedLogging y s.srv.db (removeEscape id) % 256 ≠ 0)
    (hcmds : AllSteps (recorded (executed y) (sessionStep y)) (InsertsRow y) ([], s'.world c.sess) cmds) :
    EveryState (recorded (executed y) (sessionStep y)) Audited ([], s'.world c.sess) cmds := by
  obtain ⟨mode, bit, sess, hval, hsess, hops, hlogged⟩ := System.authenticate_granted hlogin hc
  have hlogs : LogsCommands (s'.world c.sess) := by
    constructor
    · show c.sess.ops .logCmd = true
      rw [hops]
      exact (mknod_basic hsess).logCmd
    · show c.sess.isLogged ≠ 0
      rw [hlogged, System.authRun_logBit hmsg hq hval, Option.getD_some]
      cases hfault : y.fault s.tick with
      | some fault => exact Nat.one_ne_zero
      | none =>
        have hne := hbyte hfault
        have hnonneg := Int.emod_nonneg (storedLogging y s.srv.db (removeEscape id))
          (show (256 : Int) ≠ 0 by decide)
        simp only [Option.isSome_none, Bool.false_eq_true, if_false]
        omega
  have hevery := EveryState.of_allSteps (fun _ _ _ => audited_step hchild)
    (show LogsCommands (s'.world c.sess) ∧ Audited ([], s'.world c.sess) from
      ⟨hlogs, [], .nil, List.nil_sublist _⟩) hcmds
  exact hevery.mono fun _ hp => hp.2

/-- `admin`, with this value under `IsLogged`, has come as far as `__auth`. -/
def adminChecked (logged : Int) : Option System :=
  run quietSys
    (.start (usersDb [userRow 1 (lit "admin") (md5 (lit "admin")) rootUsr logged]) true 3)
    [.connect localClient, .check]

/-- The server before and after `__auth`, and the session. -/
def adminLogin (logged : Int) : Option (System × System × Client) :=
  (adminChecked logged).bind fun s => (s.authenticate quietSys (lit "auth,admin,admin")).bind
    fun s' => s'.accepting.client.map fun c => (s, s', c)

theorem adminLogin_some {logged : Int} {s s' : System} {c : Client}
    (h : adminLogin logged = some (s, s', c)) :
    s.authenticate quietSys (lit "auth,admin,admin") = some s' ∧ s'.accepting = .granted c := by
  unfold adminLogin at h
  obtain ⟨t, -, h⟩ := Option.bind_eq_some_iff.mp h
  obtain ⟨t', ht', h⟩ := Option.bind_eq_some_iff.mp h
  obtain ⟨c', hc', h⟩ := Option.map_eq_some_iff.mp h
  simp only [Prod.mk.injEq] at h
  obtain ⟨rfl, rfl, rfl⟩ := h
  exact ⟨ht', AcceptAt.granted_of_client hc'⟩

theorem authMessage_admin :
    authMessage (lit "auth,admin,admin") = .named (lit "admin") (lit "admin") := by
  decide +kernel

theorem parseRequest_newaddr : parseRequest (lit "rpc-cmd,cli-node,1_2,3,[ newaddr ],<$#EOT#$>")
    = .cliNode (some (lit "cli-node")) (lit "1,2") (some (lit "3")) (lit "[ newaddr ]") := by
  decide +kernel

/-- `admin`, who is logged, asks for an address. -/
theorem audited_admin : ∃ s s' c, adminLogin 1 = some (s, s', c) ∧
    EveryState (recorded (executed quietSys) (sessionStep quietSys)) Audited ([], s'.world c.sess)
      [lit "rpc-cmd,cli-node,1_2,3,[ newaddr ],<$#EOT#$>"] := by
  have hexists : (adminLogin 1).map (fun p => decide
      (storedLogging quietSys p.1.srv.db (removeEscape (lit "admin")) % 256 ≠ 0)) = some true := by
    decide +kernel
  obtain ⟨⟨s, s', c⟩, hs, hbyte⟩ := Option.map_eq_some_iff.mp hexists
  obtain ⟨hlogin, hc⟩ := adminLogin_some hs
  refine ⟨s, s', c, hs, audited (fun _ _ _ => rfl) hlogin hc authMessage_admin (by decide)
    (fun _ => of_decide_eq_true hbyte) fun _ _ => ⟨⟨by decide +kernel, ?_⟩, trivial⟩⟩
  intro process latlong txId command hreq
  rw [parseRequest_newaddr] at hreq
  cases hreq
  exact ⟨by decide, rfl, lit " newaddr ", by decide⟩

/-- 256 is not 0, and its byte is. -/
theorem not_audited :
    ¬ ∀ (y : Sys) (s s' : System) (c : Client) (buf id pass : Str) (cmds : List Str),
      ChildrenKeep y logsTable → (∀ t, y.fault t = none) → s.authenticate y buf = some s' →
      s'.accepting = .granted c → authMessage buf = .named id pass → QuoteFree id →
      storedLogging y s.srv.db (removeEscape id) ≠ 0 → (∀ cmd ∈ cmds, IsCliNode cmd) →
      EveryState (recorded (executed y) (sessionStep y)) Audited ([], s'.world c.sess) cmds := by
  intro h
  have hexists : ((adminLogin 256).bind fun p => (runSteps
      (recorded (executed quietSys) (sessionStep quietSys)) ([], p.2.1.world p.2.2.sess)
        [lit "rpc-cmd,cli-node,1_2,3,[ newaddr ],<$#EOT#$>"]).map fun q =>
          (decide (storedLogging quietSys p.1.srv.db (removeEscape (lit "admin")) ≠ 0),
            q.1.length, (autoEntries q.2.srv.db).length)) = some (true, 1, 0) := by
    decide +kernel
  obtain ⟨⟨s, s', c⟩, hs, hnext⟩ := Option.bind_eq_some_iff.mp hexists
  obtain ⟨q, hq, hvals⟩ := Option.map_eq_some_iff.mp hnext
  simp only [Prod.mk.injEq, decide_eq_true_eq] at hvals
  obtain ⟨hstored, hexecuted, hentries⟩ := hvals
  obtain ⟨hlogin, hc⟩ := adminLogin_some hs
  have hevery := h quietSys s s' c (lit "auth,admin,admin") (lit "admin") (lit "admin")
    [lit "rpc-cmd,cli-node,1_2,3,[ newaddr ],<$#EOT#$>"] (fun _ _ _ => rfl) (fun _ => rfl) hlogin
    hc authMessage_admin (by decide) hstored fun cmd hcmd => by
      rw [List.mem_singleton.mp hcmd]
      decide +kernel
  obtain ⟨entries, hforall, hsub⟩ := hevery.last hq
  have hlength := hsub.length_le
  rw [← hforall.length_eq, hexecuted, hentries] at hlength
  exact absurd hlength (by decide)

end Thor
