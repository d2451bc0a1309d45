import Thor.Rpc.Tokens

/-!
# Do fields arrive where they were put?

The six commands that store something, built as they are documented: the words of
the command, its fields, and the marker, each behind a comma. A field may be empty,
and fields at the end may be missing.

- `DbForm.frame`, `parseRequest_frame`: the command, and the request it is. `strtok`
  takes an empty field for none, so those behind it move up, and the marker with them.
- `Arrives`: what the documentation promises.
- `arrives_iff`: it is kept when no field is empty or missing, when the session may
  not call the operation, and for an update that gives its first field only.
-/

namespace Thor

open CLib Sql Prog

/-! ## The commands -/

/-- `db,add` and `db,update` on the three tables. -/
inductive DbForm where
  | addItem | addUser | addImage | updateItem | updateUser | updateImage
  deriving DecidableEq

namespace DbForm

def action : DbForm → Commands
  | addItem | addUser | addImage => .add
  | updateItem | updateUser | updateImage => .update

def table : DbForm → Commands
  | addItem | updateItem => .items
  | addUser | updateUser => .user
  | addImage | updateImage => .images

def actionWord : DbForm → Str
  | addItem | addUser | addImage => lit "add"
  | updateItem | updateUser | updateImage => lit "update"

def tableWord : DbForm → Str
  | addItem | updateItem => lit "items"
  | addUser | updateUser => lit "user"
  | addImage | updateImage => lit "images"

/-- The number of documented fields. -/
def arity : DbForm → Nat
  | addItem => 4
  | addImage => 2
  | _ => 3

def op : DbForm → Op
  | addItem => .addItem
  | addUser => .creatUsr
  | addImage => .addImage
  | updateItem => .updateItem
  | updateUser => .updateUsr
  | updateImage => .updateImage

end DbForm

/-- A field a client may put into such a command. -/
abbrev GivenField := { s : Str // ',' ∉ s ∧ ¬ lit "bye" <:+: s ∧ ¬ marker <:+: s }

/-- The fields that are not empty. -/
def inkedFields (fs : List GivenField) : List Str := (fs.map Subtype.val).filter (· ≠ [])

/-- The command. -/
def DbForm.frame (k : DbForm) (fs : List GivenField) : Str :=
  joinWith ',' (lit "db") (k.actionWord :: k.tableWord :: (fs.map Subtype.val ++ [marker]))

/-- The tokens behind the table's name. -/
def tokens (fs : List GivenField) : List Str := inkedFields fs ++ [marker]

section Frame

variable (k : DbForm) (fs : List GivenField)

/-- The pieces of the command, each without a comma. -/
theorem DbForm.pieces_free :
    ∀ g ∈ lit "db" :: k.actionWord :: k.tableWord :: (fs.map Subtype.val ++ [marker]),
      ∀ x ∈ g, x ∉ comma := by
  have hwords : ∀ g ∈ [lit "db", k.actionWord, k.tableWord, marker], ',' ∉ g := by
    cases k <;> decide
  intro g hg x hx hmem
  obtain rfl : x = ',' := List.mem_singleton.mp hmem
  simp only [List.mem_cons, List.mem_append, List.mem_map, List.not_mem_nil, or_false] at hg hwords
  rcases hg with rfl | rfl | rfl | ⟨f, -, rfl⟩ | rfl
  · exact hwords _ (.inl rfl) hx
  · exact hwords _ (.inr (.inl rfl)) hx
  · exact hwords _ (.inr (.inr (.inl rfl))) hx
  · exact f.2.1 hx
  · exact hwords _ (.inr (.inr (.inr rfl))) hx

theorem DbForm.fields_frame :
    fields comma (k.frame fs) = lit "db" :: k.actionWord :: k.tableWord :: tokens fs := by
  have hwords : ∀ g ∈ [lit "db", k.actionWord, k.tableWord, marker], g ≠ [] := by
    cases k <;> decide
  rw [DbForm.frame, fields_joinWith (by decide) _ _ (k.pieces_free fs)]
  simp only [List.forall_mem_cons] at hwords
  simp [List.filter_append, tokens, inkedFields, hwords]

theorem DbForm.not_bye_frame : ¬ lit "bye" <:+: k.frame fs := by
  have hwords : ∀ g ∈ [lit "db", k.actionWord, k.tableWord, marker], ¬ lit "bye" <:+: g := by
    cases k <;> decide
  rw [DbForm.frame, infix_joinWith_iff (by decide) (by decide)]
  rintro ⟨g, hg, hbye⟩
  simp only [List.mem_cons, List.mem_append, List.mem_map, List.not_mem_nil, or_false] at hg hwords
  rcases hg with rfl | rfl | rfl | ⟨f, -, rfl⟩ | rfl
  · exact hwords _ (.inl rfl) hbye
  · exact hwords _ (.inr (.inl rfl)) hbye
  · exact hwords _ (.inr (.inr (.inl rfl))) hbye
  · exact f.2.2.1 hbye
  · exact hwords _ (.inr (.inr (.inr rfl))) hbye

theorem DbForm.marker_frame : marker <:+: k.frame fs := by
  rw [DbForm.frame, infix_joinWith_iff (by decide) (by decide)]
  exact ⟨marker, by simp, List.infix_refl marker⟩

/-- **The request a command is.** -/
theorem parseRequest_frame :
    parseRequest (k.frame fs)
      = parseTable (some k.action) (some k.table) fun n => (tokens fs)[n]? := by
  have hcomma : comma <:+: k.frame fs := ⟨lit "db", _, rfl⟩
  have haction : findCmd (some k.actionWord) = some k.action := by cases k <;> decide +kernel
  have htable : findCmd (some k.tableWord) = some k.table := by cases k <;> decide +kernel
  have hdb : findCmd (some (lit "db")) = some .db := by decide +kernel
  have hfield : ∀ n, field (k.frame fs) n
      = (lit "db" :: k.actionWord :: k.tableWord :: tokens fs)[n]? := fun n => by
    rw [field, k.fields_frame]
  unfold parseRequest
  rw [if_neg (mt strstr_iff.mp (k.not_bye_frame fs)),
    if_pos ⟨strstr_iff.mpr (k.marker_frame fs), strstr_iff.mpr hcomma⟩]
  simp only [hfield, List.getElem?_cons_zero, List.getElem?_cons_succ, hdb, haction, htable]

end Frame

/-! ## What the operation gets -/

/-- Without a token for the mode a new user's command reads through it. -/
theorem parseTable_crash {f : Nat → Option Str} (hmode : f 2 = none) :
    parseTable (some .add) (some .user) f = .crash := by
  unfold parseTable
  rw [hmode]

/-- The operation a command calls and its arguments. An update by a key that is no
command word stops before it builds a statement. -/
theorem DbForm.parseTable_leaf (k : DbForm) {f : Nat → Option Str}
    (hmode : k = .addUser → f 2 ≠ none) :
    ∃ l : DbLeaf, parseTable (some k.action) (some k.table) f = .db l ∧ l.op = k.op ∧
      l.args = (List.range k.arity).map f ∧
      (k.action = .update → findCmd (f 1) = none → l.supplied = true ∧ ∀ y, l.call y = pure (-1)) := by
  cases k with
  | addUser =>
    obtain ⟨mode, hsome⟩ := Option.ne_none_iff_exists'.mp (hmode rfl)
    refine ⟨.creatUsr (f 0) (f 1) mode, ?_, rfl, ?_, nofun⟩
    · show parseTable (some .add) (some .user) f = _
      unfold parseTable
      rw [hsome]
    · show [f 0, f 1, some mode] = [f 0, f 1, f 2]
      rw [hsome]
  | addItem | addImage => exact ⟨_, rfl, rfl, rfl, nofun⟩
  | updateItem =>
    refine ⟨.updateItem (f 0) (f 1) (f 2), rfl, rfl, rfl, fun _ hkey => ⟨rfl, fun y => ?_⟩⟩
    simp only [DbLeaf.call, hkey, updateItemsInfo]
    rfl
  | updateImage =>
    refine ⟨.updateImage (f 0) (f 1) (f 2), rfl, rfl, rfl, fun _ hkey => ⟨rfl, fun y => ?_⟩⟩
    simp only [DbLeaf.call, hkey, updateItemImage]
    rfl
  | updateUser =>
    refine ⟨.updateUsr (f 0) (f 1) (f 2), rfl, rfl, rfl, fun _ hkey => ⟨?_, fun y => ?_⟩⟩
    · simp [DbLeaf.supplied, hkey]
    · simp only [DbLeaf.call, hkey, updateUserInfo, hashedValue]
      rfl

/-- What arrives at a position: a text, or the command word a key names. -/
inductive Passed where
  | text (a : Option Str)
  | key (c : Option Commands)

/-- The key of an update is passed on as a command word, everything else as it is. -/
def DbForm.passedAt (k : DbForm) (n : Nat) (a : Option Str) : Passed :=
  if k.action = .update ∧ n = 1 then .key (findCmd a) else .text a

/-- Field number `n`, if it was given. -/
def given (fs : List GivenField) (n : Nat) : Option Str := fs[n]?.map Subtype.val

/-- No token is missed, no statement is run, and the tables stay as they are. -/
structure RefusedRun (w : World) (o : Outcome World Crash Event Unit) : Prop where
  supplied : ¬ MissesToken o
  exec : ∀ sql, .exec sql ∉ o.out
  db : o.state.srv.db = w.srv.db

/-- **Fields arrive where they were put.** What the operation receives at a position is
the field given there, or nothing; and it receives all of them, or the command is refused. -/
structure Arrives (y : Sys) (k : DbForm) (fs : List GivenField) (w : World) : Prop where
  inPlace : ∀ args, .invoke k.op args ∈ ((processCmd y (k.frame fs)).run w).out →
    ∀ n a, args[n]? = some a →
      k.passedAt n a = k.passedAt n none ∨ k.passedAt n a = k.passedAt n (given fs n)
  answered :
    (∃ args, .invoke k.op args ∈ ((processCmd y (k.frame fs)).run w).out ∧
      args.length = k.arity ∧
      ∀ n a, args[n]? = some a → k.passedAt n a = k.passedAt n (given fs n)) ∨
    RefusedRun w ((processCmd y (k.frame fs)).run w)

/-! ## Runs of a leaf -/

/-- The operation is not called. -/
def NotCalled (op : Op) (_ : World) (o : List Event) (_ : World) : Prop :=
  ∀ args, .invoke op args ∉ o

theorem NotCalled.composable (op : Op) : Composable (NotCalled op) where
  refl _ _ := List.not_mem_nil
  trans h h' args hm := (List.mem_append.mp hm).elim (h args) (h' args)

theorem notCalled_emit {op : Op} {o : Event} (h : ∀ args, o ≠ .invoke op args) :
    Always (emit o) (NotCalled op) :=
  fun _ _ args hm => h args (List.mem_singleton.mp hm).symm

theorem notCalled_callPtr {α : Type} {op op' : Op} {args : List (Option Str)} {body : M α}
    (hop : op' ≠ op) (h : Always body (NotCalled op)) :
    Always (callPtr op' args body) (NotCalled op) :=
  always_callPtr (NotCalled.composable op)
    (notCalled_emit fun _ heq => hop (Event.invoke.inj heq).1) h

theorem notCalled_prim {op : Op} (hop : op ≠ .hash) :
    PrimJudgment fun m => Always m (NotCalled op) where
  pure _ := RelOn.pure (NotCalled.composable op)
  bind hm hf := RelOn.seq (NotCalled.composable op) hm hf
  gets _ := RelOn.gets (NotCalled.composable op)
  fail _ := RelOn.fail (NotCalled.composable op)
  tick _ _ _ := List.not_mem_nil
  alloc _ _ _ _ hm := nomatch List.mem_singleton.mp hm
  emitFree _ := notCalled_emit fun _ => nofun
  setValue _ _ _ _ := List.not_mem_nil
  setResponse _ _ _ _ := List.not_mem_nil
  callHash h := notCalled_callPtr hop.symm h
  emitExec _ := notCalled_emit fun _ => nofun
  setDb _ _ _ _ := List.not_mem_nil

/-- No statement is run, and the tables stay as they are. -/
structure Untouched (w : World) (o : List Event) (w' : World) : Prop where
  exec : ∀ sql, .exec sql ∉ o
  db : w'.srv.db = w.srv.db

theorem Untouched.composable : Composable Untouched where
  refl _ := ⟨fun _ => List.not_mem_nil, rfl⟩
  trans h h' :=
    ⟨fun sql hm => (List.mem_append.mp hm).elim (h.exec sql) (h'.exec sql), h'.db.trans h.db⟩

theorem untouched_callPtr {α : Type} {op : Op} {args : List (Option Str)} {body : M α}
    (h : Always body Untouched) : Always (callPtr op args body) Untouched :=
  always_callPtr Untouched.composable
    (RelOn.emit fun _ _ => ⟨fun _ h => (nomatch List.mem_singleton.mp h), rfl⟩) h

theorem untouched_local : LocalJudgment fun m => Always m Untouched where
  pure _ := RelOn.pure Untouched.composable
  bind hm hf := RelOn.seq Untouched.composable hm hf
  gets _ := RelOn.gets Untouched.composable
  fail _ := RelOn.fail Untouched.composable
  tick _ _ := ⟨fun _ => List.not_mem_nil, rfl⟩
  alloc _ _ _ := ⟨fun _ h => (nomatch List.mem_singleton.mp h), rfl⟩
  emitFree _ _ _ := ⟨fun _ h => (nomatch List.mem_singleton.mp h), rfl⟩
  setValue _ _ _ := ⟨fun _ => List.not_mem_nil, rfl⟩
  setResponse _ _ _ := ⟨fun _ => List.not_mem_nil, rfl⟩
  callHash h := untouched_callPtr h

theorem notCalled_sendResponse {op : Op} (hhash : op ≠ .hash) (hwrite : op ≠ .write) (fmt : String)
    (args : List Arg) : Always (sendResponse fmt args) (NotCalled op) :=
  RelOn.seq (NotCalled.composable op) ((notCalled_prim hhash).sprintfInto _ _) fun _ =>
    notCalled_callPtr hwrite.symm (notCalled_emit fun _ => nofun)

theorem untouched_sendResponse (fmt : String) (args : List Arg) :
    Always (sendResponse fmt args) Untouched :=
  RelOn.seq Untouched.composable (untouched_local.sprintfInto _ _) fun _ =>
    untouched_callPtr (RelOn.emit fun _ _ => ⟨fun _ h => (nomatch List.mem_singleton.mp h), rfl⟩)

theorem invoked_bind_iff {α β : Type} {op : Op} {m : M α} {f : α → M β}
    (hf : ∀ a, Always (f a) (NotCalled op)) (args : List (Option Str)) (w : World) :
    .invoke op args ∈ ((m >>= f).run w).out ↔ .invoke op args ∈ (m.run w).out := by
  rw [run_bind]
  split
  · next a _ =>
    exact List.mem_append.trans (or_iff_left (hf a _ trivial args))
  · exact Iff.rfl

theorem DbLeaf.op_ne (l : DbLeaf) : l.op ≠ .hash ∧ l.op ≠ .write := by
  cases l <;> exact ⟨nofun, nofun⟩

/-- **A leaf calls its operation** if the pointer is set, with its own arguments, and
never otherwise. -/
theorem DbLeaf.invoked_iff (y : Sys) (l : DbLeaf) (args : List (Option Str)) (w : World) :
    .invoke l.op args ∈ ((l.prog y).run w).out ↔ w.sess.ops l.op = true ∧ args = l.args := by
  have hprim : PrimJudgment fun m => Always m (NotCalled l.op) := notCalled_prim l.op_ne.1
  have hsend := notCalled_sendResponse l.op_ne.1 l.op_ne.2
  have hend : ∀ _ : Unit, Always (do l.cleanup; freeResponse) (NotCalled l.op) := fun _ =>
    hprim.bind (hprim.cleanup l) fun _ => hprim.freeResponse
  have hanswer : ∀ result : Int, Always (if result = 0 then l.ok else l.err) (NotCalled l.op) :=
    fun result => by
      split
      · exact hprim.leafOk hsend l
      · exact hprim.leafErr hsend l
  rw [DbLeaf.prog, invoked_bind_iff hend, guarded, run_tested]
  split
  · next hset =>
    rw [invoked_bind_iff hanswer, run_callPtr, if_pos hset]
    have hcall := (hprim.db y).call l w trivial args
    simp [hset, hcall]
  · next hset =>
    have hrefused := hprim.leafRefused hsend l w trivial args
    simp [hset, hrefused]

/-- A leaf whose pointer is not set, or whose operation gives up at once. -/
theorem DbLeaf.untouched_prog (y : Sys) (l : DbLeaf) (w : World)
    (h : w.sess.ops l.op = false ∨ l.call y = pure (-1)) :
    Untouched w ((l.prog y).run w).out ((l.prog y).run w).state := by
  have hsend := untouched_sendResponse
  refine RelOn.seq (P := fun w => w.sess.ops l.op = false ∨ l.call y = pure (-1))
    Untouched.composable (relOn_tested ?_ ?_)
    (fun _ => untouched_local.bind (untouched_local.cleanup l) fun _ => untouched_local.freeResponse)
    w h
  · rintro w ⟨hset | hcall, hset'⟩
    · exact absurd hset' (by simp [hset])
    · rw [hcall]
      refine RelOn.seq Untouched.composable (untouched_callPtr (untouched_local.pure _))
        (fun result => ?_) w trivial
      split
      · exact untouched_local.leafOk hsend l
      · exact untouched_local.leafErr hsend l
  · exact fun w _ => untouched_local.leafRefused hsend l w trivial

/-! ## Which commands keep the promise -/

/-- No field is empty or missing. -/
def Whole (k : DbForm) (fs : List GivenField) : Prop := fs.length = k.arity ∧ ∀ f ∈ fs, f.val ≠ []

/-- The session may not call the operation. (Refusing a new user takes a third token.) -/
def Denied (k : DbForm) (fs : List GivenField) (ops : Op → Bool) : Prop :=
  ops k.op = false ∧ (k = .addUser → 2 ≤ (inkedFields fs).length)

/-- An update that gives its first field and nothing else. -/
def ByName (k : DbForm) (fs : List GivenField) : Prop :=
  k.action = .update ∧ ∃ f rest, fs = f :: rest ∧ f.val ≠ [] ∧ ∀ g ∈ rest, g.val = []

section Tokens

variable {k : DbForm} {fs : List GivenField}

theorem marker_ne_given (n : Nat) : given fs n ≠ some marker := by
  rw [given, ne_eq, Option.map_eq_some_iff]
  rintro ⟨f, -, hf⟩
  refine f.2.2.2 ?_
  rw [hf]

theorem token_marker : (tokens fs)[(inkedFields fs).length]? = some marker := by
  rw [tokens, List.getElem?_append_right (Nat.le_refl _), Nat.sub_self]
  rfl

theorem inkedFields_length_le : (inkedFields fs).length ≤ fs.length := by
  have h := List.length_filter_le (fun s : Str => decide (s ≠ [])) (fs.map Subtype.val)
  rwa [List.length_map] at h

theorem inkedFields_of_ink (h : ∀ f ∈ fs, f.val ≠ []) : inkedFields fs = fs.map Subtype.val := by
  rw [inkedFields, List.filter_eq_self]
  intro s hs
  obtain ⟨f, hf, rfl⟩ := List.mem_map.mp hs
  exact decide_eq_true (h f hf)

theorem whole_of_length (hlen : fs.length ≤ k.arity) (h : (inkedFields fs).length = k.arity) :
    Whole k fs := by
  have hfs : fs.length = k.arity :=
    Nat.le_antisymm hlen (h ▸ inkedFields_length_le)
  refine ⟨hfs, fun f hf => ?_⟩
  have hall := List.length_filter_eq_length_iff.mp
    (h.trans (hfs.symm.trans (List.length_map Subtype.val).symm))
  exact of_decide_eq_true (hall f.val (List.mem_map_of_mem hf))

theorem token_of_whole (h : Whole k fs) {n : Nat} (hn : n < k.arity) :
    (tokens fs)[n]? = given fs n := by
  rw [tokens, inkedFields_of_ink h.2, List.getElem?_append_left (by simpa [h.1] using hn),
    List.getElem?_map, given]

theorem inkedFields_byName {f : GivenField} {rest : List GivenField} (hf : f.val ≠ [])
    (hrest : ∀ g ∈ rest, g.val = []) : inkedFields (f :: rest) = [f.val] := by
  simpa [inkedFields, hf] using hrest

end Tokens

/-! ## The law -/

section Law

variable (y : Sys) {k : DbForm} {fs : List GivenField} (w : World)

/-- Without the third token a new user's command stops the process. -/
theorem not_arrives_crash (hk : k = .addUser) (hmode : (tokens fs)[2]? = none) :
    ¬ Arrives y k fs w := by
  subst hk
  obtain ⟨saved, hrun⟩ := processCmd_run y (DbForm.frame .addUser fs) w
  rw [parseRequest_frame, show parseTable (some (DbForm.action .addUser))
    (some (DbForm.table .addUser)) _ = .crash from parseTable_crash hmode] at hrun
  rintro ⟨-, ⟨args, hargs, -⟩ | hrefused⟩
  · rw [hrun] at hargs
    exact absurd hargs List.not_mem_nil
  · refine hrefused.supplied ⟨?_, fun line hline => ?_⟩
    · rw [hrun]
      rfl
    · rw [hrun] at hline
      exact absurd hline List.not_mem_nil

/-- A user without a mode: the command is neither whole, nor refused, nor one by name. -/
theorem not_placed_of_short {ops : Op → Bool} (hshort : (inkedFields fs).length < 2) :
    ¬ (Whole .addUser fs ∨ Denied .addUser fs ops ∨ ByName .addUser fs) := by
  rintro (hwhole | hdenied | hname)
  · have hink := congrArg List.length (inkedFields_of_ink hwhole.2)
    rw [List.length_map, hwhole.1] at hink
    exact absurd hshort (by rw [hink]; decide)
  · exact absurd (hdenied.2 rfl) (by omega)
  · exact nomatch hname.1

/-- The run of a command that stops nowhere while it takes its fields. -/
theorem DbForm.run_leaf (hmode : k = .addUser → (tokens fs)[2]? ≠ none) :
    ∃ (l : DbLeaf) (w' : World),
      (processCmd y (k.frame fs)).run w = (l.prog y).run w' ∧ w'.sess = w.sess ∧ w'.srv = w.srv ∧
      l.op = k.op ∧ (∀ n a, l.args[n]? = some a ↔ n < k.arity ∧ a = (tokens fs)[n]?) ∧
      l.args.length = k.arity ∧
      (k.action = .update → findCmd (tokens fs)[1]? = none →
        l.supplied = true ∧ l.call y = pure (-1)) := by
  obtain ⟨saved, hrun⟩ := processCmd_run y (k.frame fs) w
  obtain ⟨l, hparse, hop, hargs, hkey⟩ := k.parseTable_leaf hmode
  rw [parseRequest_frame, hparse] at hrun
  refine ⟨l, { w with saved }, hrun, rfl, rfl, hop, fun n a => ?_, by rw [hargs]; simp,
    fun hact hnone => (hkey hact hnone).imp_right fun h => h y⟩
  rw [hargs, List.getElem?_map, Option.map_eq_some_iff]
  constructor
  · rintro ⟨m, hm, rfl⟩
    obtain ⟨hlt, rfl⟩ := List.getElem?_eq_some_iff.mp hm
    rw [List.length_range] at hlt
    rw [List.getElem_range]
    exact ⟨hlt, rfl⟩
  · rintro ⟨hlt, rfl⟩
    exact ⟨n, by rw [List.getElem?_range hlt], rfl⟩

/-- A leaf that is not called, or whose call does nothing, leaves the world as it is. -/
theorem DbLeaf.refusedRun (l : DbLeaf) {w' : World} (hsess : w'.sess = w.sess)
    (hsrv : w'.srv = w.srv)
    (h : w.sess.ops l.op = false ∨ l.supplied = true ∧ l.call y = pure (-1)) :
    RefusedRun w ((l.prog y).run w') := by
  have huntouched := l.untouched_prog y w' (by rw [hsess]; exact h.imp_right And.right)
  refine ⟨Request.not_misses y (r := .db l) (w := w') fun hset => ?_, huntouched.exec,
    huntouched.db.trans (by rw [hsrv])⟩
  rw [hsess] at hset
  exact h.elim (fun hno => absurd hset (by simp [hno])) And.left

/-- When every token stays in its place, there is a whole command or only a name. -/
theorem whole_or_byName (hlen : fs.length ≤ k.arity)
    (h : ∀ n, n < k.arity → k.passedAt n (tokens fs)[n]? = k.passedAt n none ∨
      k.passedAt n (tokens fs)[n]? = k.passedAt n (given fs n)) :
    Whole k fs ∨ ByName k fs := by
  by_cases hwhole : (inkedFields fs).length = k.arity
  · exact .inl (whole_of_length hlen hwhole)
  -- the marker takes the place behind the last field that is not empty
  have hlt : (inkedFields fs).length < k.arity :=
    lt_of_le_of_ne (inkedFields_length_le.trans hlen) hwhole
  have hmarker := h _ hlt
  rw [token_marker] at hmarker
  have hkey : k.action = .update ∧ (inkedFields fs).length = 1 := by
    by_contra hno
    rw [DbForm.passedAt, if_neg hno, DbForm.passedAt, if_neg hno, DbForm.passedAt, if_neg hno]
      at hmarker
    rcases hmarker with hm | hm
    · exact nomatch Passed.text.inj hm
    · exact marker_ne_given _ (Passed.text.inj hm).symm
  refine .inr ⟨hkey.1, ?_⟩
  have hfirst := h 0 (by omega)
  rw [DbForm.passedAt, if_neg (by simp), DbForm.passedAt, if_neg (by simp), DbForm.passedAt,
    if_neg (by simp)] at hfirst
  cases fs with
  | nil => exact nomatch hkey.2
  | cons f rest =>
    by_cases hf : f.val = []
    · -- the first field is what follows an empty one
      exfalso
      obtain ⟨x, hx⟩ := List.length_eq_one_iff.mp hkey.2
      have hink : x ≠ [] := of_decide_eq_true
        (List.mem_filter.mp (show x ∈ inkedFields (f :: rest) by simp [hx])).2
      rw [tokens, hx] at hfirst
      rcases hfirst with hm | hm
      · exact nomatch Passed.text.inj hm
      · have hxf : some x = some f.val := Passed.text.inj hm
        exact hink ((Option.some.inj hxf).trans hf)
    · refine ⟨f, rest, rfl, hf, fun g hg => ?_⟩
      have hone := hkey.2
      by_contra hne
      have hmem : g.val ∈ inkedFields rest :=
        List.mem_filter.mpr ⟨List.mem_map_of_mem hg, decide_eq_true hne⟩
      have hcons : inkedFields (f :: rest) = f.val :: inkedFields rest := by
        simp [inkedFields, hf]
      rw [hcons, List.length_cons, Nat.add_eq_right, List.length_eq_zero_iff] at hone
      rw [hone] at hmem
      exact absurd hmem List.not_mem_nil

/-- The marker is no command word. -/
theorem findCmd_marker : findCmd (some marker) = none := by decide +kernel

/-- The tokens of a command that gives a name only: the marker is taken for the key. -/
theorem passedAt_byName (h : ByName k fs) {n : Nat} :
    k.passedAt n (tokens fs)[n]? = k.passedAt n none ∨
      k.passedAt n (tokens fs)[n]? = k.passedAt n (given fs n) := by
  obtain ⟨hact, f, rest, rfl, hf, hrest⟩ := h
  rw [tokens, inkedFields_byName hf hrest]
  match n with
  | 0 => exact .inr rfl
  | 1 =>
    refine .inl ?_
    rw [DbForm.passedAt, DbForm.passedAt, if_pos ⟨hact, rfl⟩, if_pos ⟨hact, rfl⟩]
    exact congrArg Passed.key findCmd_marker
  | n + 2 => exact .inl rfl

/-- **Fields arrive where they were put** in a whole command, in one the session may not
call, and in an update that gives its first field only. In every other command an empty
or missing field lets the ones behind it and the marker move up, and they are stored. -/
theorem arrives_iff (hlen : fs.length ≤ k.arity) :
    Arrives y k fs w ↔ Whole k fs ∨ Denied k fs w.sess.ops ∨ ByName k fs := by
  have hthird : (tokens fs)[2]? = none ↔ (inkedFields fs).length < 2 := by
    rw [List.getElem?_eq_none_iff, tokens, List.length_append]
    exact Iff.rfl
  -- without a third token `atoi` gets a null pointer, and the process stops
  by_cases hmode : k = .addUser ∧ (tokens fs)[2]? = none
  · refine iff_of_false (not_arrives_crash y w hmode.1 hmode.2) ?_
    obtain ⟨rfl, hnone⟩ := hmode
    exact not_placed_of_short (hthird.mp hnone)
  obtain ⟨l, w', hrun, hsess, hsrv, hop, hargs, hlength, hkey⟩ :=
    DbForm.run_leaf y w fun hk hnone => hmode ⟨hk, hnone⟩
  have hinvoked : ∀ args, .invoke k.op args ∈ ((processCmd y (k.frame fs)).run w).out ↔
      w.sess.ops k.op = true ∧ args = l.args := fun args => by
    rw [hrun, ← hop, l.invoked_iff, hsess]
  have hrefused (h : w.sess.ops l.op = false ∨ l.supplied = true ∧ l.call y = pure (-1)) :
      RefusedRun w ((processCmd y (k.frame fs)).run w) := by
    rw [hrun]
    exact l.refusedRun y w hsess hsrv h
  rw [hop] at hrefused
  have hunset (h : w.sess.ops k.op = false) : Arrives y k fs w :=
    ⟨fun args hm => absurd ((hinvoked args).mp hm).1 (by simp [h]), .inr (hrefused (.inl h))⟩
  constructor
  · intro h
    by_cases hset : w.sess.ops k.op = true
    · have hplaced := whole_or_byName hlen fun n hn =>
        h.inPlace l.args ((hinvoked _).mpr ⟨hset, rfl⟩) n _ ((hargs n _).mpr ⟨hn, rfl⟩)
      exact hplaced.imp_right .inr
    · refine .inr (.inl ⟨Bool.eq_false_iff.mpr hset, fun hk => ?_⟩)
      exact Nat.le_of_not_lt fun hlt => hmode ⟨hk, hthird.mpr hlt⟩
  · intro h
    cases hset : w.sess.ops k.op with
    | false => exact hunset hset
    | true =>
      rcases h with hwhole | hdenied | hname
      · -- the tokens of a whole command are its fields
        have hgiven : ∀ n a, l.args[n]? = some a → k.passedAt n a = k.passedAt n (given fs n) := by
          intro n a ha
          obtain ⟨hn, rfl⟩ := (hargs n a).mp ha
          rw [token_of_whole hwhole hn]
        refine ⟨fun args hm n a ha => ?_, .inl ⟨l.args, (hinvoked _).mpr ⟨hset, rfl⟩, hlength, hgiven⟩⟩
        obtain ⟨-, rfl⟩ := (hinvoked args).mp hm
        exact .inr (hgiven n a ha)
      · exact absurd hset (by simp [hdenied.1])
      · -- the marker is no key, so that the call returns before it builds a text
        refine ⟨fun args hm n a ha => ?_, .inr (hrefused (.inr (hkey hname.1 ?_)))⟩
        · obtain ⟨-, rfl⟩ := (hinvoked args).mp hm
          obtain ⟨-, rfl⟩ := (hargs n a).mp ha
          exact passedAt_byName hname
        · obtain ⟨-, f, rest, rfl, hf, hrest⟩ := hname
          rw [tokens, inkedFields_byName hf hrest]
          exact findCmd_marker

end Law

def givenField (s : String)
    (h : ',' ∉ lit s ∧ ¬ lit "bye" <:+: lit s ∧ ¬ marker <:+: lit s := by decide) : GivenField :=
  ⟨lit s, h⟩

/-- A whole item arrives. -/
theorem arrives_whole :
    Arrives quietSys .addItem [givenField "1", givenField "5", givenField "3", givenField "tea"]
      (.before initDataRoot (usersDb [])) :=
  (arrives_iff _ _ (by decide)).mpr (.inl ⟨by decide, by decide⟩)

/-- An item without a quantity: its price is stored for the quantity, its name for the
price, and the marker for its name. -/
theorem not_arrives :
    ¬ ∀ (y : Sys) (k : DbForm) (fs : List GivenField) (w : World), fs.length ≤ k.arity →
      Arrives y k fs w := by
  intro h
  have harrives := h quietSys .addItem [givenField "1", givenField "", givenField "3", givenField "tea"]
    (.before initDataRoot (usersDb [])) (by decide)
  have hargs : .invoke .addItem [some (lit "1"), some (lit "3"), some (lit "tea"), some marker] ∈
      ((processCmd quietSys (DbForm.frame .addItem
        [givenField "1", givenField "", givenField "3", givenField "tea"])).run
          (.before initDataRoot (usersDb []))).out := by decide +kernel
  rcases harrives.inPlace _ hargs 3 (some marker) rfl with hlost | hname
  · exact nomatch Passed.text.inj hlost
  · exact absurd (Passed.text.inj hname) (by decide)

end Thor
