import Thor.CLib.Str

/-!
# The words of a shell line

How a POSIX shell divides a line into words, with its quotes, and which characters of it
are active: they end a command, join two, redirect one or start a substitution.

- `ShState.step`: the scanner, a character at a time.
- `SimpleCommand`: a line of words only, the first of which is the program.
- `quoted`: all that is active in a text is quoted, and every quote is closed.
- `simpleCommand_iff`: a program and a text behind it are a simple command when the text
  is quoted.
-/

namespace CLib

/-! ## Quoting -/

/-- Where a scanner stands with respect to quotes. -/
inductive ShMode where
  | plain
  | escaped
  | single
  | double
  | doubleEscaped
  | comment
  deriving DecidableEq

/-- Control operators and redirections. -/
def isOperator (c : Char) : Bool :=
  c == ';' || c == '|' || c == '&' || c == '(' || c == ')' || c == '<' || c == '>' || c == '\n'

/-- What starts an expansion; double quotes do not prevent it. -/
def isExpansion (c : Char) : Bool := c == '$' || c == '`'

namespace ShMode

/-- The mode after a character; `start` when no word has begun. -/
def next (start : Bool) : ShMode → Char → ShMode
  | plain, c =>
    if c = '\\' then escaped
    else if c = '\'' then single
    else if c = '"' then double
    else if c = '#' ∧ start then comment
    else plain
  | escaped, _ => plain
  | single, c => if c = '\'' then plain else single
  | double, c => if c = '"' then plain else if c = '\\' then doubleEscaped else double
  | doubleEscaped, _ => double
  | comment, c => if c = '\n' then plain else comment

/-- Is the character active? -/
def active : ShMode → Char → Bool
  | plain, c => isOperator c || isExpansion c
  | double, c => isExpansion c
  | comment, c => c == '\n'
  | escaped, _ | single, _ | doubleEscaped, _ => false

/-- May a line end here? -/
def closed : ShMode → Bool
  | plain | escaped | comment => true
  | single | double | doubleEscaped => false

end ShMode

/-! ## The scanner -/

inductive ShToken where
  /-- a word, its quotes removed -/
  | word (text : Str)
  | active (c : Char)
  deriving DecidableEq

def ShToken.isWord : ShToken → Bool
  | word _ => true
  | active _ => false

/-- The word that has begun, and the tokens before it. -/
structure ShState where
  mode : ShMode
  word : Option Str
  done : List ShToken
  deriving DecidableEq

namespace ShState

def start : ShState := ⟨.plain, none, []⟩

/-- A character of a word. -/
def add (s : ShState) (c : Char) : ShState := { s with word := some (s.word.getD [] ++ [c]) }

/-- A quote begins a word, also an empty one. -/
def begin (s : ShState) : ShState := { s with word := some (s.word.getD []) }

def endWord (s : ShState) : ShState :=
  match s.word with
  | none => s
  | some w => { s with word := none, done := s.done ++ [.word w] }

def put (s : ShState) (c : Char) : ShState := { s with done := s.done ++ [.active c] }

/-- What a character does to the words, by the mode it is read in. -/
def take (s : ShState) (c : Char) : ShState :=
  match s.mode with
  | .plain =>
    if c = '\\' then s
    else if c = '\'' ∨ c = '"' then s.begin
    else if c = ' ' ∨ c = '\t' then s.endWord
    else if isOperator c then s.endWord.put c
    else if isExpansion c then s.put c
    else if c = '#' ∧ s.word.isNone then s
    else s.add c
  | .escaped => if c = '\n' then s else s.add c
  | .single => if c = '\'' then s else s.add c
  | .double =>
    if c = '"' ∨ c = '\\' then s
    else if isExpansion c then s.put c
    else s.add c
  | .doubleEscaped =>
    if c = '\n' then s
    else if isExpansion c ∨ c = '"' ∨ c = '\\' then s.add c
    else (s.add '\\').add c
  | .comment => if c = '\n' then s.put c else s

def step (s : ShState) (c : Char) : ShState :=
  { s.take c with mode := s.mode.next s.word.isNone c }

def scan (s : ShState) (text : Str) : ShState := text.foldl step s

/-- The tokens when the line ends: `none` inside quotes. A backslash at the end stands for
itself. -/
def tokens (s : ShState) : Option (List ShToken) :=
  if s.mode.closed then
    some (if s.mode = .escaped then (s.add '\\').endWord else s.endWord).done
  else none

end ShState

/-- The line is one command, with words for arguments. -/
def SimpleCommand (program line : Str) : Prop :=
  ∃ args, (ShState.start.scan line).tokens = some (.word program :: args) ∧
    ∀ t ∈ args, t.isWord = true

/-- From a mode on, nothing in a text is active, and it leaves no quote open. -/
def quotedFrom : ShMode → Str → Bool
  | m, [] => m.closed
  | m, c :: s => !m.active c && quotedFrom (m.next false c) s

def quoted (text : Str) : Bool := quotedFrom .plain text

/-! ## What a step adds -/

namespace ShState

/-- The tokens are those there were and some more, which are words unless `act`. -/
def Grows (s s' : ShState) (act : Bool) : Prop :=
  ∃ ts, s'.done = s.done ++ ts ∧ ts.all ShToken.isWord = !act

variable {s s' s'' : ShState} {c : Char}

theorem grows_of_eq (h : s'.done = s.done) : Grows s s' false :=
  ⟨[], h.trans (List.append_nil _).symm, rfl⟩

theorem Grows.trans {a b : Bool} (h : Grows s s' a) (h' : Grows s' s'' b) :
    Grows s s'' (a || b) := by
  obtain ⟨ts, hts, hall⟩ := h
  obtain ⟨ts', hts', hall'⟩ := h'
  refine ⟨ts ++ ts', by rw [hts', hts, List.append_assoc], ?_⟩
  rw [List.all_append, hall, hall', Bool.not_or]

theorem grows_endWord (s : ShState) : Grows s s.endWord false := by
  unfold endWord
  cases hword : s.word with
  | none => exact grows_of_eq rfl
  | some w => exact ⟨[.word w], rfl, rfl⟩

theorem grows_put (s : ShState) (c : Char) : Grows s (s.put c) true := ⟨[.active c], rfl, rfl⟩

/-- A step adds an active token where its character is active, and else at most a word. -/
theorem grows_take (s : ShState) (c : Char) : Grows s (s.take c) (s.mode.active c) := by
  unfold take
  cases s.mode with
  | plain =>
    -- the cases in the order in which `take` tests for them
    dsimp only [ShMode.active]
    by_cases hback : c = '\\'
    · subst hback
      exact grows_of_eq rfl
    rw [if_neg hback]
    by_cases hquote : c = '\'' ∨ c = '"'
    · rw [if_pos hquote]
      rcases hquote with rfl | rfl <;> exact grows_of_eq rfl
    rw [if_neg hquote]
    by_cases hblank : c = ' ' ∨ c = '\t'
    · rw [if_pos hblank]
      rcases hblank with rfl | rfl <;> exact grows_endWord s
    rw [if_neg hblank]
    cases hop : isOperator c with
    | true => exact (grows_endWord s).trans (grows_put _ c)
    | false =>
      rw [if_neg Bool.false_ne_true, Bool.false_or]
      cases hexp : isExpansion c with
      | true => exact grows_put s c
      | false =>
        rw [if_neg Bool.false_ne_true]
        split
        · exact grows_of_eq rfl
        · exact grows_of_eq rfl
  | escaped =>
    dsimp only [ShMode.active]
    split <;> exact grows_of_eq rfl
  | single =>
    dsimp only [ShMode.active]
    split <;> exact grows_of_eq rfl
  | double =>
    dsimp only [ShMode.active]
    by_cases hquote : c = '"' ∨ c = '\\'
    · rw [if_pos hquote]
      rcases hquote with rfl | rfl <;> exact grows_of_eq rfl
    rw [if_neg hquote]
    cases hexp : isExpansion c with
    | true => exact grows_put s c
    | false => exact grows_of_eq rfl
  | doubleEscaped =>
    dsimp only [ShMode.active]
    split
    · exact grows_of_eq rfl
    · split <;> exact grows_of_eq rfl
  | comment =>
    dsimp only [ShMode.active]
    by_cases hnl : c = '\n'
    · subst hnl
      exact grows_put s '\n'
    · rw [if_neg hnl, beq_false_of_ne hnl]
      exact grows_of_eq rfl

/-- Without a `#` the mode does not depend on the words. -/
theorem step_mode (s : ShState) (hc : c ≠ '#') : (s.step c).mode = s.mode.next false c := by
  show s.mode.next s.word.isNone c = _
  cases s.mode <;> simp [ShMode.next, hc]

/-- A text without a `#` adds words only, and ends outside quotes, when it is quoted. -/
theorem grows_scan {text : Str} (htext : '#' ∉ text) (s : ShState) :
    ∃ act, Grows s (s.scan text) act ∧
      (!act && (s.scan text).mode.closed) = quotedFrom s.mode text := by
  induction text generalizing s with
  | nil => exact ⟨false, grows_of_eq rfl, by rw [quotedFrom, Bool.not_false, Bool.true_and]; rfl⟩
  | cons c text ih =>
    have hc : c ≠ '#' := fun h => htext (h ▸ List.mem_cons_self ..)
    obtain ⟨act, hgrows, hquoted⟩ := ih (fun h => htext (List.mem_cons_of_mem c h)) (s.step c)
    -- the mode after `c` is the one that `quotedFrom` goes on with
    refine ⟨s.mode.active c || act, (grows_take s c).trans hgrows, ?_⟩
    rw [step_mode s hc] at hquoted
    rw [quotedFrom, ← hquoted, Bool.not_or, Bool.and_assoc]
    rfl

theorem grows_tokens {s : ShState} {ts : List ShToken} (h : s.tokens = some ts) :
    s.mode.closed = true ∧ ∃ ws, ts = s.done ++ ws ∧ ws.all ShToken.isWord = true := by
  unfold tokens at h
  split at h
  · next hclosed =>
    refine ⟨hclosed, ?_⟩
    obtain rfl := Option.some.inj h
    split
    · exact grows_endWord (s.add '\\')
    · exact grows_endWord s
  · cases h

end ShState

/-- **A program and a text** that is put behind it without any change. -/
theorem simpleCommand_iff {program pre text : Str}
    (hpre : ShState.start.scan pre = ⟨.plain, none, [.word program]⟩) (htext : '#' ∉ text) :
    SimpleCommand program (pre ++ text) ↔ quoted text = true := by
  obtain ⟨act, ⟨ts, hts, hall⟩, hquoted⟩ :=
    ShState.grows_scan htext (s := ⟨.plain, none, [.word program]⟩)
  have hscan : ShState.start.scan (pre ++ text)
      = ShState.scan ⟨.plain, none, [.word program]⟩ text := by
    rw [← hpre]
    exact List.foldl_append ..
  show _ ↔ quotedFrom .plain text = true
  unfold SimpleCommand
  rw [hscan, ← hquoted, ← hall, Bool.and_eq_true]
  -- what the text adds decides: words only, and no quote left open
  generalize ShState.scan ⟨.plain, none, [.word program]⟩ text = s at hts
  constructor
  · rintro ⟨args, htokens, hargs⟩
    obtain ⟨hclosed, ws, heq, -⟩ := ShState.grows_tokens htokens
    rw [hts] at heq
    obtain rfl := (List.cons.inj heq).2
    exact ⟨List.all_eq_true.mpr fun t ht => hargs t (List.mem_append_left _ ht), hclosed⟩
  · rintro ⟨hwords, hclosed⟩
    have hsome : ∃ tokens, s.tokens = some tokens := by
      unfold ShState.tokens
      rw [if_pos hclosed]
      exact ⟨_, rfl⟩
    obtain ⟨tokens, htokens⟩ := hsome
    obtain ⟨-, ws, rfl, hws⟩ := ShState.grows_tokens htokens
    rw [hts] at htokens
    refine ⟨ts ++ ws, htokens, fun t ht => ?_⟩
    rcases List.mem_append.mp ht with ht | ht
    · exact List.all_eq_true.mp hwords t ht
    · exact List.all_eq_true.mp hws t ht

end CLib
