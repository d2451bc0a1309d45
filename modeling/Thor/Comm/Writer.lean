import Thor.CLib.Cut
import Thor.Comm.Capacity
import Thor.Rpc.Replies
import Thor.Rpc.Slot

/-!
# What a client receives (comm/writer.c)

`thor_writer` puts the footer behind a payload and sends both. The prompt of `__auth` and
the message of `__kick` are literals with a footer of their own, and are sent with their
`sizeof`, which counts the terminator.

- `attachFooter`, `thorWriter_eq`: a frame is the payload and the footer.
- `Transcript`: the messages to one client, and the bytes it receives.
- `transcript_not_framed`: these bytes are never just the frames of the messages.
- `cut_replies_iff`: behind the prompt they are, and are cut back into the messages exactly
  when no message has a footer in it.
-/

namespace Thor

open CLib Prog

/-! ## The writer -/

def footer : Str := lit ",<$#EOT#$>\n"

/-- `attach_footer`: the frame in its array, up to the length computed. -/
def attachFooter (buf : Str) (len : Nat) : Except Crash Str :=
  let text := sprintf (lit "%s,<$#EOT#$>\n") [buf]
  if fits (len + 15) text then .ok (text.take (strnlen text (text.length + 15)))
  else .error .overflow

/-- `thor_writer`: what goes into `SSL_write`. -/
def thorWriter (buf : Str) (len : Nat) : Except Crash Str := attachFooter buf len

/-- **A frame** is the payload and the footer. -/
theorem thorWriter_eq {buf : Str} {len : Nat} (h : buf.length ≤ len + 2) :
    thorWriter buf len = .ok (buf ++ footer) := by
  have htext : sprintf (lit "%s,<$#EOT#$>\n") [buf] = buf ++ footer := by
    show buf ++ sprintf footer [] = _
    rw [show sprintf footer [] = footer by decide]
  have hfooter : footer.length = 11 := by decide
  have hfits : fits (len + 15) (buf ++ footer) = true := by
    rw [fits_iff, List.length_append, hfooter]
    omega
  unfold thorWriter attachFooter
  rw [htext]
  dsimp only
  rw [if_pos hfits, strnlen, Nat.min_eq_left (Nat.le_add_right ..), List.take_length]

/-- A string literal, sent with its `sizeof`. -/
def sizedLiteral (s : Str) : Str := s ++ ['\x00']

/-- The prompt of `__auth`. -/
def authWho : Str := sizedLiteral (lit "auth,who,<$#EOT#$>\n")

/-- The message of `__kick`. -/
def authFail : Str := sizedLiteral (lit "auth,fail,-1,<$#EOT#$>\n")

/-- The response of `__accept`, and the length it tells the writer. -/
def authOk (mode : Int) : Str := sprintf (lit "auth,ok,%d") [fmtD mode]

def authOkLen (mode : Int) : Nat := strnlen (authOk mode) 24 + 1

/-- What the writer sends for a payload, if its array has room. -/
def written (payload : Str) (len : Nat) : Str := ((thorWriter payload len).toOption).getD []

/-- What `send_response` sends: it tells the writer the length of the payload. -/
theorem written_reply (payload : Str) : written payload payload.length = payload ++ footer := by
  rw [written, thorWriter_eq (Nat.le_add_right ..)]
  rfl

theorem written_authOk {mode : Int} (h : mode = dflUsr ∨ mode = elvtUsr ∨ mode = rootUsr) :
    written (authOk mode) (authOkLen mode) = authOk mode ++ footer := by
  rcases h with rfl | rfl | rfl <;> decide +kernel

/-! ## Sessions -/

/-- The replies of some commands. -/
def replies (traces : List (List Event)) : List Str := (traces.map sent).flatten

/-- The bytes of a session behind the prompt. -/
def behindPrompt (mode : Int) (traces : List (List Event)) : Str :=
  written (authOk mode) (authOkLen mode) ++ ((replies traces).map fun p => written p p.length).flatten

/-- The messages to a client, and the bytes it receives: it has been prompted, has been
kicked out, or its session has processed some commands. -/
inductive Transcript (y : Sys) : List Str → Str → Prop where
  | prompted : Transcript y [lit "auth,who"] authWho
  | kicked {s s' : System} {buf : Str} : s.authenticate y buf = some s' →
      (∀ c, s'.accepting ≠ .granted c) →
      Transcript y [lit "auth,who", lit "auth,fail,-1"] (authWho ++ authFail)
  | served {s s' : System} {buf : Str} {c : Client} {traces : List (List Event)} {w : World} :
      s.authenticate y buf = some s' → s'.accepting = .granted c →
      Served y c.sess (fun _ _ => True) traces w →
      Transcript y (lit "auth,who" :: authOk c.sess.mode :: replies traces)
        (authWho ++ behindPrompt c.sess.mode traces)

/-- The bytes are the messages, each with the footer behind it and nothing else, and are
cut back into them. -/
def Framed (messages : List Str) (bytes : Str) : Prop :=
  bytes = framed footer messages ∧ cut footer [] bytes = (messages, [])

/-- The mode of a session that has been granted. -/
theorem granted_mode {y : Sys} {s s' : System} {buf : Str} {c : Client}
    (h : s.authenticate y buf = some s') (hc : s'.accepting = .granted c) :
    c.sess.mode = dflUsr ∨ c.sess.mode = elvtUsr ∨ c.sess.mode = rootUsr := by
  obtain ⟨p, logBit, -, ⟨mode, sess, -, hsess, rfl⟩ | ⟨-, rfl⟩⟩ := System.authenticate_some h
  · cases hc
    rcases mknod_cases hsess with ⟨hmode, -⟩ | ⟨hmode, -⟩ | ⟨hmode, -⟩
    · exact .inl hmode
    · exact .inr (.inl hmode)
    · exact .inr (.inr hmode)
  · cases hc

/-- **Behind the prompt**, a session sends frames. -/
theorem behindPrompt_eq {mode : Int} (h : mode = dflUsr ∨ mode = elvtUsr ∨ mode = rootUsr)
    (traces : List (List Event)) :
    behindPrompt mode traces = framed footer (authOk mode :: replies traces) := by
  have hreplies : ((replies traces).map fun p => written p p.length)
      = (replies traces).map (· ++ footer) := List.map_congr_left fun p _ => written_reply p
  rw [behindPrompt, written_authOk h, hreplies, framed_cons]
  rfl

/-- A client receives more bytes than the frames of its messages. -/
theorem length_framed_lt {y : Sys} {messages : List Str} {bytes : Str}
    (h : Transcript y messages bytes) : (framed footer messages).length < bytes.length := by
  cases h with
  | prompted => decide
  | kicked => decide
  | served hauth hc _ =>
    have hwho : authWho.length = (lit "auth,who" ++ footer).length + 1 := by decide
    rw [behindPrompt_eq (granted_mode hauth hc), framed_cons, List.length_append, List.length_append,
      List.length_append, hwho, List.length_append]
    omega

/-- What is cut back into the messages are their frames. -/
theorem eq_framed_of_cut {messages : List Str} {bytes : Str}
    (h : cut footer [] bytes = (messages, [])) : bytes = framed footer messages := by
  have hcut := framed_cut footer [] bytes
  rw [h, List.append_nil, List.nil_append] at hcut
  exact hcut.symm

/-- **No stream is just frames**, or is cut back into its messages: a byte stands behind the
footer of the prompt. -/
theorem transcript_not_framed {y : Sys} {messages : List Str} {bytes : Str}
    (h : Transcript y messages bytes) :
    bytes ≠ framed footer messages ∧ cut footer [] bytes ≠ (messages, []) := by
  have hne : bytes ≠ framed footer messages := fun hbytes => by
    have hlt := length_framed_lt h
    rw [hbytes] at hlt
    exact Nat.lt_irrefl _ hlt
  exact ⟨hne, fun hcut => hne (eq_framed_of_cut hcut)⟩

/-! ## `admin` says `auth` -/

/-- A client of `tableSys` is accepted. -/
def acceptedServer : Option System :=
  run tableSys (.start (usersDb []) false 3) [.connect localClient, .check]

def authCommand : Str := lit "auth,<$#EOT#$>"

/-- `admin` logs in, and the command is answered. -/
theorem authCommand_admin : ∃ (s s' : System) (c : Client),
    s.authenticate tableSys (lit "auth,admin1,admin1") = some s' ∧
      s'.accepting = .granted c ∧ authOk c.sess.mode = lit "auth,ok,0" ∧
      ((processCmd tableSys authCommand).run (s'.world c.sess)).val = .ok () ∧
        replies [((processCmd tableSys authCommand).run (s'.world c.sess)).out] =
          [lit "auth,status,logged-in"] := by
  have hall : acceptedServer.bind (fun s =>
      (s.authenticate tableSys (lit "auth,admin1,admin1")).bind fun s' =>
      s'.accepting.client.map fun c =>
        (((processCmd tableSys authCommand).run (s'.world c.sess)).val.toOption,
          authOk c.sess.mode, sent ((processCmd tableSys authCommand).run (s'.world c.sess)).out))
      = some (some (), lit "auth,ok,0", [lit "auth,status,logged-in"]) := by decide +kernel
  obtain ⟨s, -, hs⟩ := Option.bind_eq_some_iff.mp hall
  obtain ⟨s', hauth, hs'⟩ := Option.bind_eq_some_iff.mp hs
  obtain ⟨c, hc, hrun⟩ := Option.map_eq_some_iff.mp hs'
  simp only [Prod.mk.injEq] at hrun
  obtain ⟨hval, hok, hsent⟩ := hrun
  refine ⟨s, s', c, hauth, AcceptAt.granted_of_client hc, hok, ?_, (List.append_nil _).trans hsent⟩
  cases h : ((processCmd tableSys authCommand).run (s'.world c.sess)).val with
  | error e =>
    rw [h] at hval
    cases hval
  | ok u => rfl

theorem transcript_admin : ∃ bytes, Transcript tableSys
    [lit "auth,who", lit "auth,ok,0", lit "auth,status,logged-in"] bytes := by
  obtain ⟨s, s', c, hauth, hgranted, hok, hval, hreplies⟩ := authCommand_admin
  have hserved := Transcript.served hauth hgranted (Served.command authCommand
    (.start (y := tableSys) (P := fun _ _ => True) (w := s'.world c.sess) rfl)
    ⟨rfl, rfl, rfl, Nat.le_refl _⟩ trivial hval)
  rw [List.nil_append, hreplies, hok] at hserved
  exact ⟨_, hserved⟩

/-- Nor is that of this session. -/
theorem admin_not_framed : ∃ bytes,
    Transcript tableSys [lit "auth,who", lit "auth,ok,0", lit "auth,status,logged-in"] bytes ∧
      bytes ≠ framed footer [lit "auth,who", lit "auth,ok,0", lit "auth,status,logged-in"] ∧
      cut footer [] bytes ≠ ([lit "auth,who", lit "auth,ok,0", lit "auth,status,logged-in"], []) := by
  obtain ⟨bytes, h⟩ := transcript_admin
  exact ⟨bytes, h, transcript_not_framed h⟩

/-- The prompt is enough. -/
theorem not_framed : ¬ ∀ (y : Sys) (messages : List Str) (bytes : Str),
    Transcript y messages bytes → Framed messages bytes := by
  intro h
  obtain ⟨hbytes, -⟩ := h quietSys _ _ .prompted
  exact absurd hbytes (by decide)

/-! ## Replies -/

/-- **Behind the prompt** the messages of a session are got back exactly when none of them
has a footer in it. -/
theorem cut_replies_iff {y : Sys} {s s' : System} {buf : Str} {c : Client}
    (h : s.authenticate y buf = some s') (hc : s'.accepting = .granted c)
    (traces : List (List Event)) :
    cut footer [] (behindPrompt c.sess.mode traces) = (authOk c.sess.mode :: replies traces, []) ↔
      ∀ p ∈ replies traces, ¬ footer <:+: p := by
  have hmode := granted_mode h hc
  have hok : ¬ footer <:+: authOk c.sess.mode := by
    rcases hmode with h | h | h <;> rw [h] <;> decide
  rw [behindPrompt_eq hmode]
  refine (cut_framed_iff (c := ',') (t := lit "<$#EOT#$>\n") (by decide)).trans ?_
  rw [List.forall_mem_cons]
  exact and_iff_right hok

/-- The session of `admin` is cut back into its messages. -/
theorem cut_replies_admin : ∃ (s s' : System) (c : Client) (out : List Event),
    s.authenticate tableSys (lit "auth,admin1,admin1") = some s' ∧ s'.accepting = .granted c ∧
      cut footer [] (behindPrompt c.sess.mode [out]) =
        ([lit "auth,ok,0", lit "auth,status,logged-in"], []) := by
  obtain ⟨s, s', c, hauth, hgranted, hok, -, hreplies⟩ := authCommand_admin
  have hcut := (cut_replies_iff hauth hgranted
    [((processCmd tableSys authCommand).run (s'.world c.sess)).out]).2 (by
      rw [hreplies]
      decide)
  rw [hreplies, hok] at hcut
  exact ⟨s, s', c, _, hauth, hgranted, hcut⟩

end Thor
