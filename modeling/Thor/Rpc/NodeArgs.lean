import Thor.Database.Walk

/-!
# The arguments of `cli-node`

What `rpc-cmd,cli-node` hands to `popen`, for every frame of the documented form.

- `parseRequest_cliNode`: the request in the frame. `strtok` takes the marker for a
  set of bytes, so the command ends at the first byte of its arguments that occurs
  in the marker.
- `popened_cliNode`: the line the request opens.
- `ranGiven_iff`: when it is `lightning-cli` with the arguments of the frame.
-/

namespace Thor

open CLib Sql Prog

/-! ## Lines handed to `popen` -/

/-- The lines handed to `popen`. -/
def popened (o : List Event) : List Str :=
  o.filterMap fun
    | .popen line => some line
    | _ => none

/-- No child process is started. -/
def Childless (_ : World) (o : List Event) (_ : World) : Prop := popened o = []

theorem popened_append (o o' : List Event) : popened (o ++ o') = popened o ++ popened o' :=
  List.filterMap_append

theorem Childless.composable : Composable Childless where
  refl _ := rfl
  trans {_ o _ o' _} h h' := by
    show popened (o ++ o') = []
    rw [popened_append, show popened o = [] from h, show popened o' = [] from h']
    rfl

theorem childless_bind {α β : Type} {m : M α} {f : α → M β} (hm : Always m Childless)
    (hf : ∀ a, Always (f a) Childless) : Always (m >>= f) Childless :=
  RelOn.seq Childless.composable hm hf

theorem childless_callPtr {α : Type} {op : Op} {args : List (Option Str)} {body : M α}
    (h : Always body Childless) : Always (callPtr op args body) Childless :=
  always_callPtr Childless.composable (fun _ _ => rfl) h

theorem childless_prim : PrimJudgment (Always · Childless) where
  pure _ := RelOn.pure Childless.composable
  bind := childless_bind
  gets _ := RelOn.gets Childless.composable
  fail _ := RelOn.fail Childless.composable
  tick _ _ := rfl
  emitExec _ _ _ := rfl
  setDb _ _ _ := rfl
  alloc _ _ _ := rfl
  emitFree _ _ _ := rfl
  setValue _ _ _ := rfl
  setResponse _ _ _ := rfl
  callHash := childless_callPtr

theorem childless_sendResponse (fmt : String) (args : List Arg) :
    Always (sendResponse fmt args) Childless :=
  childless_bind (childless_prim.sprintfInto _ _) fun _ => childless_callPtr fun _ _ => rfl

theorem childless_bye (y : Sys) : Always (Request.bye.prog y) Childless := by
  have hemit {e : Event} (h : popened [e] = []) : Always (emit e) Childless := fun _ _ => h
  have hmodify {f : World → World} : Always (modify f) Childless := fun _ _ => rfl
  exact childless_bind (childless_callPtr (childless_bind hmodify fun _ => hemit rfl))
    fun _ => hemit rfl

/-! ## Running a child -/

theorem popened_runProcess (y : Sys) (line : Str) (w : World) :
    popened ((runProcess y line).run w).out = if y.alloc w.tick then [line] else [] := by
  unfold runProcess
  rw [run_bind_of_ok (a := w.tick) rfl]
  cases y.alloc w.tick with
  | false => exact childless_sendResponse _ _ _ trivial
  | true =>
    simp only [if_true]
    rw [run_bind_of_ok (a := ()) rfl]
    refine congrArg (line :: ·) (?_ : popened _ = [])
    refine childless_bind childless_prim.tick (fun t => childless_bind (childless_prim.gets _)
      fun db => childless_bind (childless_prim.setDb _) fun _ => ?_) _ trivial
    cases (y.popen t line db).1 with
    | none => exact childless_prim.fail _
    | some chunks =>
      exact childless_bind (childless_prim.lift _) fun _ => childless_sendResponse _ _

theorem exists_strnlen {command : Str} (hne : command ≠ []) :
    ∃ n, strnlen command (kb 700) = n + 1 := by
  have := List.length_pos_iff.mpr hne
  refine ⟨strnlen command (kb 700) - 1, ?_⟩
  simp only [strnlen, kb]
  omega

theorem length_cutBrackets (command : Str) (n : Nat) : (cutBrackets command (n + 1)).length ≤ n :=
  List.length_take_le ..

/-- The array for the line has room for it, unless the command is empty. -/
theorem popened_execRpcCmd (y : Sys) {command : Str} (hne : command ≠ []) (w : World) :
    popened ((execRpcCmd y command).run w).out =
      if y.alloc w.tick then
        [lit "lightning-cli " ++ cutBrackets command (strnlen command (kb 700))] else [] := by
  obtain ⟨n, hn⟩ := exists_strnlen hne
  have hline : sprintf (lit "lightning-cli %s") [cutBrackets command (n + 1)]
      = lit "lightning-cli " ++ cutBrackets command (n + 1) := by
    simp [lit, sprintf]
  have hroom : (lit "lightning-cli " ++ cutBrackets command (n + 1)).length < 14 + (n + 1) + 1 := by
    have := length_cutBrackets command n
    rw [List.length_append, show (lit "lightning-cli ").length = 14 from rfl]
    omega
  unfold execRpcCmd
  rw [hn, run_bind_of_ok (a := ()) rfl]
  dsimp only
  rw [hline]
  have hsprintf : (sprintfInto (14 + (n + 1) + 1)
      (lit "lightning-cli " ++ cutBrackets command (n + 1))).run w
      = ⟨.ok (lit "lightning-cli " ++ cutBrackets command (n + 1)), w, []⟩ := by
    rw [run_sprintfInto, if_pos hroom]
  show popened ((sprintfInto _ _ >>= _).run w).out = _
  rw [run_bind_of_ok (congrArg Outcome.val hsprintf), hsprintf]
  exact popened_runProcess y _ w

/-! ## The insert before it -/

/-- A statement that fits its array is run, and the function returns. -/
theorem runStatement_returns (y : Sys) {cap : Nat} {text : Str} (h : text.length < cap) (w : World) :
    ∃ r, ((runStatement y cap text).run w).val = .ok r ∧
      ((runStatement y cap text).run w).state.tick = w.tick + 1 := by
  have hsprintf : (sprintfInto cap text).run w = ⟨.ok text, w, []⟩ := by
    rw [run_sprintfInto, if_pos h]
  unfold runStatement
  rw [run_bind_of_ok (congrArg Outcome.val hsprintf), hsprintf]
  have hexec := run_sqlite3Exec y text (fun (u : Unit) _ => u) () w
  cases hf : y.fault w.tick with
  | some fault =>
    rw [hf] at hexec
    have hstore := run_storeMessage (some fault) { w with tick := w.tick + 1 }
    rw [run_bind_of_ok (congrArg Outcome.val hexec), hexec, run_bind_of_ok hstore.1]
    exact ⟨_, rfl, hstore.2.1⟩
  | none =>
    rw [hf] at hexec
    rw [run_bind_of_ok (congrArg Outcome.val hexec), hexec,
      run_bind_of_ok (run_storeMessage _ _).1]
    exact ⟨_, rfl, (run_storeMessage _ _).2.1⟩

/-- The insert returns if its text fits, and stops the process if not. -/
theorem logRpcCommand_returns (y : Sys) (type : LogType) (process command latlong txId : Option Str)
    (w : World) :
    if (logSql y w type process command latlong txId).length < 8000 then
      ∃ r, ((logRpcCommand y type process command latlong txId).run w).val = .ok r ∧
        ((logRpcCommand y type process command latlong txId).run w).state.tick = w.tick + 2
    else ((logRpcCommand y type process command latlong txId).run w).val = .error .overflow := by
  rw [run_logRpcCommand]
  split
  · next hlen => exact runStatement_returns y hlen _
  · next hlen =>
    unfold runStatement
    rw [run_bind_of_error (e := .overflow) (by rw [run_sprintfInto, if_neg hlen])]

/-- When `cli-node` gets as far as `popen`: its insert into the log fits, if it makes
one, and there is memory for the answer. -/
def cliNodeGoes (y : Sys) (w : World) (process latlong txId command : Option Str) : Prop :=
  if w.sess.isLogged = 0 then y.alloc w.tick = true
  else (logSql y w .auto process command latlong txId).length < 8000 ∧
    y.alloc (w.tick + 2) = true

instance (y : Sys) (w : World) (process latlong txId command : Option Str) :
    Decidable (cliNodeGoes y w process latlong txId command) := by
  unfold cliNodeGoes
  infer_instance

/-- **The line `cli-node` opens.** -/
theorem popened_runCliNode (y : Sys) {w : World} (hset : w.sess.ops .logCmd = true)
    (process : Option Str) (latlong : Str) (txId : Option Str) {command : Str}
    (hne : command ≠ []) :
    popened ((runCliNode y process latlong txId command).run w).out =
      if cliNodeGoes y w process (some latlong) txId (some command) then
        [lit "lightning-cli " ++ cutBrackets command (strnlen command (kb 700))] else [] := by
  unfold runCliNode cliNodeGoes
  rw [run_bind_of_ok (a := w.sess.isLogged) rfl, run_gets, List.nil_append]
  dsimp only
  by_cases hlogged : w.sess.isLogged = 0
  · simp only [hlogged, ne_eq, not_true_eq_false, if_false, if_true]
    exact popened_execRpcCmd y hne w
  · simp only [hlogged, ne_eq, not_false_eq_true, if_true, if_false]
    have hchild : popened ((logRpcCommand y .auto process (some command) (some latlong) txId).run
        w).out = [] := (childless_prim.db y).logRpcCommand _ _ _ _ _ w trivial
    have hlog := logRpcCommand_returns y .auto process (some command) (some latlong) txId w
    have hcall := run_callPtr .logCmd [process, some command, some latlong, txId]
      (logRpcCommand y .auto process (some command) (some latlong) txId) w
    rw [if_pos hset] at hcall
    generalize logRpcCommand y .auto process (some command) (some latlong) txId = log at *
    split at hlog
    · next hlen =>
      obtain ⟨r, hval, htick⟩ := hlog
      rw [run_bind_of_ok (by rw [hcall]; exact hval), hcall]
      dsimp only
      rw [popened_append, popened_execRpcCmd y hne, htick]
      simp only [hlen, true_and]
      exact congrArg (· ++ _) hchild
    · next hlen =>
      rw [run_bind_of_error (by rw [hcall]; exact hlog), hcall, if_neg fun h => hlen h.1]
      exact hchild

/-! ## The documented frame -/

/-- `rpc-cmd,cli-node,<latlong>,<txId>,[ <args> ],<$#EOT#$>` -/
def cliNodeFrame (latlong txId args : Str) : Str :=
  lit "rpc-cmd" ++ ',' :: (lit "cli-node" ++ ',' :: (latlong ++ ',' :: (txId ++ ',' ::
    (lit "[ " ++ args ++ lit " ]," ++ marker))))

/-- The command `strtok` cuts from the frame, before its last byte is dropped. -/
def cliNodeToken (args : Str) : Str :=
  lit "[ " ++ (cutToken marker (args ++ (lit " ]," ++ marker))).1

theorem strtok_cliNode (args : Str) :
    (strtok marker (lit "[ " ++ args ++ lit " ]," ++ marker)).1 = some (cliNodeToken args) := by
  rw [List.append_assoc, List.append_assoc, strtok_append (by decide) (by decide)]
  rfl

/-- The fields of the frame. -/
structure CliNodeFields (frame latlong txId args : Str) : Prop where
  verb : field frame 0 = some (lit "rpc-cmd")
  process : field frame 1 = some (lit "cli-node")
  latlong : field frame 2 = some latlong
  txId : field frame 3 = some txId
  rest : strtokRest comma 4 frame = lit "[ " ++ args ++ lit " ]," ++ marker

theorem cliNodeFields {latlong txId : Str} (args : Str) (hlat : latlong ≠ []) (hlat' : ',' ∉ latlong)
    (htx : txId ≠ []) (htx' : ',' ∉ txId) :
    CliNodeFields (cliNodeFrame latlong txId args) latlong txId args := by
  have hcomma : ',' ∈ comma := by decide
  have hfree {s : Str} (h : ',' ∉ s) : ∀ x ∈ s, x ∉ comma := by
    rintro x hx hmem
    obtain rfl : x = ',' := List.mem_singleton.mp hmem
    exact h hx
  have h0 := strtokRest_field (d := comma) (n := 0) (s := cliNodeFrame latlong txId args) rfl
    (by decide) (by decide) hcomma
  have h1 := strtokRest_field h0.2 (by decide) (by decide) hcomma
  have h2 := strtokRest_field h1.2 hlat (hfree hlat') hcomma
  have h3 := strtokRest_field h2.2 htx (hfree htx') hcomma
  exact ⟨h0.1, h1.1, h2.1, h3.1, h3.2⟩

/-- `bye` in the frame is `bye` in one of its parts. -/
theorem bye_cliNodeFrame (latlong txId args : Str) :
    lit "bye" <:+: cliNodeFrame latlong txId args ↔
      lit "bye" <:+: latlong ∨ lit "bye" <:+: txId ∨ lit "bye" <:+: args := by
  have hne : lit "bye" ≠ [] := by decide
  have hargs : lit "[ " ++ args ++ lit " ]," ++ marker
      = lit "[" ++ ' ' :: (args ++ ' ' :: (lit "]," ++ marker)) := by simp [lit]
  unfold cliNodeFrame
  rw [hargs, infix_append_cons_iff hne (by decide), infix_append_cons_iff hne (by decide),
    infix_append_cons_iff hne (by decide), infix_append_cons_iff hne (by decide),
    infix_append_cons_iff hne (by decide), infix_append_cons_iff hne (by decide)]
  have h0 : ¬ lit "bye" <:+: lit "rpc-cmd" := by decide
  have h1 : ¬ lit "bye" <:+: lit "cli-node" := by decide
  have h2 : ¬ lit "bye" <:+: lit "[" := by decide
  have h3 : ¬ lit "bye" <:+: lit "]," ++ marker := by decide
  simp only [h0, h1, h2, h3, false_or, or_false]

theorem parseRequest_cliNode {latlong txId : Str} (args : Str) (hlat : '_' ∈ latlong)
    (hlat' : ',' ∉ latlong) (htx : txId ≠ []) (htx' : ',' ∉ txId)
    (hbye : ¬ lit "bye" <:+: cliNodeFrame latlong txId args) :
    ∃ l, underscoreToComma (some latlong) = some l ∧
      parseRequest (cliNodeFrame latlong txId args) =
        .cliNode (some (lit "cli-node")) l (some txId) (cliNodeToken args).dropLast := by
  have hf := cliNodeFields args (List.ne_nil_of_mem hlat) hlat' htx htx'
  have hl : ∃ l, underscoreToComma (some latlong) = some l := by simp [underscoreToComma, hlat]
  obtain ⟨l, hl⟩ := hl
  have hmarker : strstr (cliNodeFrame latlong txId args) marker = true :=
    strstr_iff.mpr ⟨lit "rpc-cmd" ++ ',' :: (lit "cli-node" ++ ',' :: (latlong ++ ',' :: (txId ++ ',' ::
      (lit "[ " ++ args ++ lit " ],")))), [], by simp [cliNodeFrame]⟩
  have hcomma : strstr (cliNodeFrame latlong txId args) comma = true :=
    strstr_iff.mpr ⟨lit "rpc-cmd", _, by simp [cliNodeFrame, comma, lit]; rfl⟩
  refine ⟨l, hl, ?_⟩
  unfold parseRequest
  rw [strstr_eq_false.mpr hbye, hmarker, hcomma, hf.verb, hf.process]
  show parseRpcCmd _ (some .clinode) = _
  unfold parseRpcCmd parseCliNode
  rw [hf.process, hf.latlong, hf.txId, hf.rest, strtok_cliNode, hl]

/-! ## What the line says -/

/-- A byte of the marker in the arguments is lost. -/
theorem not_mem_marker_of_cut {args : Str} {n : Nat} {c : Char} (hc : c ∈ marker) :
    c ∉ lit " " ++ cutBrackets (cliNodeToken args).dropLast (n + 1) := by
  intro h
  have hblank : c ≠ ' ' := by
    rintro rfl
    revert hc
    decide
  have htoken : c ∈ cliNodeToken args := by
    rcases List.mem_append.mp h with h | h
    · exact absurd (List.mem_singleton.mp h) hblank
    · rcases List.mem_cons.mp (List.mem_of_mem_take h) with h | h
      · exact absurd h hblank
      · exact List.mem_of_mem_dropLast (List.mem_of_mem_tail h)
  have hopen : ∀ x ∈ lit "[ ", x ∉ marker := by decide
  rcases List.mem_append.mp htoken with h | h
  · exact hopen c h hc
  · exact (mem_cutToken_fst h).2 hc

/-- Arguments that come out as they went in have none. -/
theorem free_of_trim {args : Str} (htrim : trimBlanks (lit " " ++ cutBrackets
    (cliNodeToken args).dropLast (strnlen (cliNodeToken args).dropLast (kb 700)))
      = trimBlanks args) : ∀ c ∈ args, c ∉ marker := by
  intro c hc hmem
  have hink : c ∈ inked args := by
    refine List.mem_filter.mpr ⟨hc, ?_⟩
    have hmarker : ∀ x ∈ marker, (x != ' ') = true := by decide
    exact hmarker c hmem
  -- trimming takes blanks only, and no byte of the marker is one
  rw [← inked_trimBlanks, ← htrim, inked_trimBlanks] at hink
  have hne : (cliNodeToken args).dropLast ≠ [] := nofun
  obtain ⟨n, hn⟩ := exists_strnlen hne
  rw [hn] at hink
  exact not_mem_marker_of_cut hmem (List.mem_of_mem_filter hink)

/-- Without one, the command is the arguments in their brackets. -/
theorem cliNodeToken_of_free {args : Str} (h : ∀ c ∈ args, c ∉ marker) :
    (cliNodeToken args).dropLast = lit "[ " ++ args ++ lit " ]" := by
  have hcut : cutToken marker (lit " ]," ++ marker) = (lit " ],", lit "$#EOT#$>") := by decide
  unfold cliNodeToken
  rw [cutToken_append h, hcut, ← List.append_assoc]
  show (lit "[ " ++ args ++ (lit " ]" ++ [','])).dropLast = _
  rw [← List.append_assoc, List.dropLast_concat]

/-- The number of bytes of the arguments that are left when `KB(700)` cuts them. -/
def argsMax : Nat := 699997

theorem cutBrackets_args (args : Str) :
    cutBrackets (lit "[ " ++ args ++ lit " ]") (strnlen (lit "[ " ++ args ++ lit " ]") (kb 700))
      = lit "  " ++ (args ++ lit " ]").take (min (args.length + 1) argsMax) := by
  have hlen : strnlen (lit "[ " ++ args ++ lit " ]") (kb 700)
      = min (args.length + 1) argsMax + 1 + 1 + 1 := by
    simp only [strnlen, List.length_append, kb, argsMax]
    show min (2 + args.length + 2) _ = _
    omega
  rw [hlen]
  rfl

/-- The arguments are run as given unless something of them is cut off at the end. -/
theorem trim_cut_iff (args : Str) :
    trimBlanks (lit " " ++ (lit "  " ++ (args ++ lit " ]").take (min (args.length + 1) argsMax)))
      = trimBlanks args ↔ ∀ c ∈ args.drop argsMax, c = ' ' := by
  rw [trimBlanks_blanks_append (by decide), trimBlanks_blanks_append (by decide)]
  by_cases hlen : args.length + 1 ≤ argsMax
  · have htake : (args ++ lit " ]").take (args.length + 1) = args ++ [' '] := by
      rw [List.take_append, List.take_of_length_le (by omega), Nat.add_sub_cancel_left]
      rfl
    rw [Nat.min_eq_left hlen, htake, trimBlanks_append_blanks (by simp),
      List.drop_of_length_le (by omega)]
    simp
  · rw [Nat.min_eq_right (by omega), List.take_append_of_le_length (by omega)]
    conv_lhs => rhs; rw [← List.take_append_drop argsMax args]
    exact trimBlanks_append_eq_iff

/-! ## The arguments are run as given -/

/-- One line is handed to `popen`, and it is `lightning-cli` with the arguments, up
to blanks around them. -/
def RanGiven (args : Str) (o : List Event) : Prop :=
  ∃ r, popened o = [lit "lightning-cli" ++ r] ∧ trimBlanks r = trimBlanks args

/-- **The arguments are run as given** when none of their bytes occurs in the marker,
nothing of them lies beyond the maximum, no other field holds a `bye`, and the log
and the memory let the command through. -/
theorem ranGiven_iff (y : Sys) {role : Int} {uid : Nat} {s : Session} {w : World}
    {latlong txId args : Str} (hmk : mknod role uid = some s) (hops : w.sess.ops = s.ops)
    (hlat : '_' ∈ latlong) (hlat' : ',' ∉ latlong) (htx : txId ≠ []) (htx' : ',' ∉ txId)
    (hbye : ¬ lit "bye" <:+: args) :
    RanGiven args ((processCmd y (cliNodeFrame latlong txId args)).run w).out ↔
      (∀ c ∈ args, c ∉ marker) ∧ (∀ c ∈ args.drop argsMax, c = ' ') ∧
      ¬ lit "bye" <:+: latlong ∧ ¬ lit "bye" <:+: txId ∧
      cliNodeGoes y w (some (lit "cli-node")) (underscoreToComma (some latlong)) (some txId)
        (some (lit "[ " ++ args ++ lit " ]")) := by
  obtain ⟨saved, hrun⟩ := processCmd_run y (cliNodeFrame latlong txId args) w
  rw [hrun]
  -- a `bye` in any field, and the frame is a farewell: nothing is run
  by_cases hframe : lit "bye" <:+: cliNodeFrame latlong txId args
  · have hprog : parseRequest (cliNodeFrame latlong txId args) = .bye := by
      unfold parseRequest
      rw [strstr_iff.mpr hframe, if_pos rfl]
    have hnone : popened ((Request.bye.prog y).run { w with saved }).out = [] :=
      childless_bye y _ trivial
    rw [hprog]
    constructor
    · rintro ⟨r, hline, -⟩
      rw [hnone] at hline
      cases hline
    · rintro ⟨-, -, hnolat, hnotx, -⟩
      have := (bye_cliNodeFrame latlong txId args).mp hframe
      simp only [hnolat, hnotx, hbye, or_self] at this
  · obtain ⟨l, hl, hprog⟩ := parseRequest_cliNode args hlat hlat' htx htx' hframe
    have hset : w.sess.ops .logCmd = true := by
      rw [hops]
      rcases mknod_cases hmk with ⟨-, rfl⟩ | ⟨-, rfl⟩ | ⟨-, rfl⟩ <;> rfl
    have hne : (cliNodeToken args).dropLast ≠ [] := nofun
    have hline := popened_runCliNode y (w := { w with saved }) hset (some (lit "cli-node")) l
      (some txId) hne
    have hsplit : lit "lightning-cli " = lit "lightning-cli" ++ lit " " := by decide
    rw [hsplit, List.append_assoc] at hline
    rw [hprog, hl]
    show RanGiven args ((runCliNode y _ l _ _).run { w with saved }).out ↔ _
    constructor
    · rintro ⟨r, hr, htrim⟩
      rw [hline] at hr
      split at hr
      · next hgoes =>
        obtain rfl := List.append_cancel_left (List.cons.inj hr).1
        have hfree := free_of_trim htrim
        rw [cliNodeToken_of_free hfree] at hgoes htrim
        rw [cutBrackets_args, trim_cut_iff] at htrim
        rw [bye_cliNodeFrame, not_or, not_or] at hframe
        exact ⟨hfree, htrim, hframe.1, hframe.2.1, hgoes⟩
      · cases hr
    · rintro ⟨hfree, hend, -, -, hgoes⟩
      have hgoes' : cliNodeGoes y { w with saved } (some (lit "cli-node")) (some l) (some txId)
          (some (lit "[ " ++ args ++ lit " ]")) := hgoes
      rw [cliNodeToken_of_free hfree] at hline ⊢
      rw [if_pos hgoes', cutBrackets_args] at hline
      exact ⟨_, hline, (trim_cut_iff args).mpr hend⟩

/-- `newaddr` is run as given. -/
theorem ranGiven_newaddr :
    RanGiven (lit "newaddr") ((processCmd quietSys (cliNodeFrame (lit "1_2") (lit "3")
      (lit "newaddr"))).run (.before { initDataDflt with uid := 1 } (usersDb []))).out :=
  (ranGiven_iff quietSys (show mknod dflUsr 0 = some { initDataDflt with uid := 1 } from rfl) rfl
    (by decide) (by decide) (by decide) (by decide) (by decide)).mpr
      ⟨by decide, by decide, by decide, by decide, by decide +kernel⟩

/-- A capital `T` ends the command, and the byte before it is lost. -/
theorem not_ranGiven :
    ¬ ∀ (y : Sys) (role : Int) (uid : Nat) (s : Session) (w : World) (latlong txId args : Str),
      (∀ t, y.alloc t = true) → mknod role uid = some s → w.sess.ops = s.ops → '_' ∈ latlong →
      ',' ∉ latlong → txId ≠ [] → ',' ∉ txId →
      (∀ c ∈ args, c ≠ '\x00' ∧ c ≠ '\r' ∧ c ≠ '\n') → ¬ marker <:+: args →
      ¬ lit "bye" <:+: args →
      RanGiven args ((processCmd y (cliNodeFrame latlong txId args)).run w).out := by
  intro h
  obtain ⟨r, hr, htrim⟩ := h quietSys dflUsr 0 _ (.before { initDataDflt with uid := 1 } (usersDb []))
    (lit "1_2") (lit "3") (lit "sendpay T") (fun _ => rfl) rfl rfl (by decide) (by decide)
    (by decide) (by decide) (by decide) (by decide) (by decide)
  have hline : popened ((processCmd quietSys (cliNodeFrame (lit "1_2") (lit "3")
      (lit "sendpay T"))).run (.before { initDataDflt with uid := 1 } (usersDb []))).out
      = [lit "lightning-cli" ++ lit "   sendpa"] := by decide +kernel
  rw [hline] at hr
  obtain rfl := List.append_cancel_left (List.cons.inj hr).1
  revert htrim
  decide

end Thor
