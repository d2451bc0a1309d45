import Thor.Security.AuthMessage

/-!
# A login while a command is parsed

`__process_cmd` runs in the serving thread and `__auth` in the one that accepts
clients. Both take their fields with `strtok`, which keeps one position for the two. The
calls each of them makes are those of its scan (`processCmd_scan`, `authParse_scan`), and
`undisturbed_iff` says in which orders neither thread notices the other.
-/

namespace Thor

open CLib

/-- The serving thread is on the left, the accepting one on the right. -/
abbrev Parsed : Side → Type
  | .left => Request
  | .right => AuthMessage

def parseText (cmd buf : Str) : Side → Str
  | .left => cmd
  | .right => buf

def parseScan (cmd buf : Str) : ∀ i, Scan (Parsed i)
  | .left => scanCmd cmd
  | .right => scanAuth buf

/-- Before the first call of either thread. -/
def parseShared (cmd buf : Str) : Shared Parsed := ⟨parseScan cmd buf, fun _ => false, (.left, [])⟩

/-- The same with a position for each. -/
def parseApart (cmd buf : Str) : Apart Parsed :=
  ⟨parseScan cmd buf, fun _ => false, parseText cmd buf, .left⟩

/-- A command and a login whose calls of `strtok` come in the order `σ`: each thread gets
the tokens it gets alone. -/
def ParsesUndisturbed (cmd buf : Str) (σ : List Side) : Prop :=
  Unnoticed (parseText cmd buf) σ (parseShared cmd buf) (parseApart cmd buf)

/-- **A login does not disturb a command** if and only if, until both texts are used up,
neither thread makes a call after the other's first one. -/
theorem undisturbed_iff (cmd buf : Str) (σ : List Side) :
    ParsesUndisturbed cmd buf σ ↔ (parseApart cmd buf).Clear σ :=
  unnoticed_iff_clear ⟨rfl, rfl, fun i _ => by cases i <;> rfl, fun _ h => nomatch h⟩

/-- A login between the first two fields of a command and the others: the item that is
deleted is the password. -/
theorem not_parsesUndisturbed :
    ¬ ∀ (cmd buf : Str) (σ : List Side), ParsesUndisturbed cmd buf σ := by
  intro h
  have hleft := h (lit "db,del,items,1,<$#EOT#$>") (lit "auth,ann,pw")
    [.left, .left, .left, .right, .right, .left, .right] .left
  have htoken := congrArg (fun ts => (ts.map (Option.map Prod.snd))[3]?) hleft
  revert htoken
  decide +kernel

end Thor
