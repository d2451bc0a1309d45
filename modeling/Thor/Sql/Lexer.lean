import Thor.CLib.Str

/-!
# The tokens of SQL

A tokeniser in the form of a transducer: it reads one character at a time,
emits the tokens that character completes, and keeps the token under
construction in its state. Reading a text piece by piece is then the same as
reading it whole (`Machine.run_append`), which is what makes a statement built
around foreign strings analysable: the fixed pieces are run once and for all,
and only the strings are left.

The rules are those of SQLite's tokeniser:

- a string literal opens with `'` and ends at the first `'` that is not
  doubled; a doubled one stands for one `'` in its value;
- `--` starts a comment up to the end of the line, `/*` one up to `*/`;
- double quotes, back quotes and square brackets enclose identifiers;
- keywords are recognised in any letter case;
- what no rule accepts, and a literal that is never closed, is `illegal`.
-/

namespace Sql

open CLib

/-! ## Transducers -/

/-- A transducer: a step emits any number of tokens, and so does the end of the
input. -/
structure Machine (σ ι ω : Type) where
  step : σ → ι → List ω × σ
  flush : σ → List ω

namespace Machine

variable {σ ι ω : Type}

/-- Read an input from a state: the tokens emitted and the state after. -/
def run (m : Machine σ ι ω) : σ → List ι → List ω × σ
  | s, [] => ([], s)
  | s, c :: cs => ((m.step s c).1 ++ (m.run (m.step s c).2 cs).1, (m.run (m.step s c).2 cs).2)

variable (m : Machine σ ι ω)

/-- Read an input up to its end. -/
def all (s : σ) (cs : List ι) : List ω := (m.run s cs).1 ++ m.flush (m.run s cs).2

theorem run_append : ∀ (s : σ) (cs ds : List ι),
    m.run s (cs ++ ds)
      = ((m.run s cs).1 ++ (m.run (m.run s cs).2 ds).1, (m.run (m.run s cs).2 ds).2)
  | _, [], _ => rfl
  | s, c :: cs, ds => by
    have ih := run_append (m.step s c).2 cs ds
    simp only [List.cons_append, run, ih, List.append_assoc]

theorem all_append (s : σ) (cs ds : List ι) :
    m.all s (cs ++ ds) = (m.run s cs).1 ++ m.all (m.run s cs).2 ds := by
  simp only [all, run_append, List.append_assoc]

theorem all_cons (s : σ) (c : ι) (cs : List ι) :
    m.all s (c :: cs) = (m.step s c).1 ++ m.all (m.step s c).2 cs := by
  simp only [all, run, List.append_assoc]

end Machine

/-! ## Tokens -/

/-- The keywords the statements of `Sql.Parser` are made of. -/
inductive Kw where
  | SELECT | FROM | WHERE | INSERT | INTO | VALUES | UPDATE | SET | DELETE | AND | OR
  deriving DecidableEq

inductive Token where
  | kw (k : Kw)
  | reserved (w : Str)
  | id (w : Str)
  | str (s : Str)
  | num (s : Str)
  | blob (s : Str)
  | lparen | rparen | comma | semi | star | eq | minus
  | op (s : Str)
  | illegal
  deriving DecidableEq

/-- The keywords of `Kw`, in lower case. -/
def keywords : List (Str × Kw) :=
  [(lit "select", .SELECT), (lit "from", .FROM), (lit "where", .WHERE),
   (lit "insert", .INSERT), (lit "into", .INTO), (lit "values", .VALUES),
   (lit "update", .UPDATE), (lit "set", .SET), (lit "delete", .DELETE),
   (lit "and", .AND), (lit "or", .OR)]

/-- SQLite's other keywords, by their first letter: none of them is read as an
identifier here. -/
def reservedWords : List (Char × List String) :=
  [('a', ["abort", "action", "add", "after", "all", "alter", "always", "analyze", "as", "asc",
     "attach", "autoincrement"]),
   ('b', ["before", "begin", "between", "by"]),
   ('c', ["cascade", "case", "cast", "check", "collate", "column", "commit", "conflict",
     "constraint", "create", "cross", "current", "current_date", "current_time",
     "current_timestamp"]),
   ('d', ["database", "default", "deferrable", "deferred", "desc", "detach", "distinct", "do",
     "drop"]),
   ('e', ["each", "else", "end", "escape", "except", "exclude", "exclusive", "exists",
     "explain"]),
   ('f', ["fail", "filter", "first", "following", "for", "foreign", "full"]),
   ('g', ["generated", "glob", "group", "groups"]),
   ('h', ["having"]),
   ('i', ["if", "ignore", "immediate", "in", "index", "indexed", "initially", "inner", "instead",
     "intersect", "is", "isnull"]),
   ('j', ["join"]),
   ('k', ["key"]),
   ('l', ["last", "left", "like", "limit"]),
   ('m', ["match", "materialized"]),
   ('n', ["natural", "no", "not", "nothing", "notnull", "null", "nulls"]),
   ('o', ["of", "offset", "on", "order", "others", "outer", "over"]),
   ('p', ["partition", "plan", "pragma", "preceding", "primary"]),
   ('q', ["query"]),
   ('r', ["raise", "range", "recursive", "references", "regexp", "reindex", "release", "rename",
     "replace", "restrict", "returning", "right", "rollback", "row", "rows"]),
   ('s', ["savepoint"]),
   ('t', ["table", "temp", "temporary", "then", "ties", "to", "transaction", "trigger"]),
   ('u', ["unbounded", "union", "unique", "using"]),
   ('v', ["vacuum", "view", "virtual"]),
   ('w', ["when", "window", "with", "without"])]

/-- `w` in lower case: SQL names and keywords do not tell cases apart. -/
def lower (w : Str) : Str := w.map Char.toLower

def isReserved (w : Str) : Bool :=
  match lower w with
  | [] => false
  | c :: _ => ((reservedWords.lookup c).getD []).any fun r => lit r == lower w

/-- The token a complete word is. -/
def classify (w : Str) : Token :=
  match keywords.lookup (lower w) with
  | some k => .kw k
  | none => if isReserved w then .reserved w else .id w

/-! ## The tokeniser -/

/-- The token under construction. -/
inductive Lex where
  | start
  | word (w : Str)
  | num (w : Str)
  | dot
  | var (w : Str)
  /-- inside `'...'` -/
  | str (s : Str)
  /-- after a `'` inside a literal: its end, or the first half of a doubled one -/
  | strQuote (s : Str)
  | blob (s : Str)
  /-- inside an identifier that `q` closes -/
  | quoted (q : Char) (w : Str)
  | quotedQuote (q : Char) (w : Str)
  | bracketed (w : Str)
  | minus | lineComment
  | slash | blockComment | blockStar
  | eq | lt | gt | bang | bar
  | illegal
  deriving DecidableEq

/-- The back quote. -/
def backquote : Char := Char.ofNat 96

/-- The blanks between tokens. -/
def isBlank (c : Char) : Bool :=
  c == ' ' || c == '\t' || c == '\n' || c == '\r' || c == '\x0c'

/-- A character of a name: letters, digits, `_`, `$`, and every byte above ASCII. -/
def isIdChar (c : Char) : Bool :=
  c.isAlphanum || c == '_' || c == '$' || decide (128 ≤ c.toNat)

/-- The first character of a token. -/
def startStep (c : Char) : List Token × Lex :=
  if c = '\'' then ([], .str [])
  else if isBlank c then ([], .start)
  else if c.isDigit then ([], .num [c])
  else if c = '$' then ([], .var [c])
  else if isIdChar c then ([], .word [c])
  else if c = '(' then ([.lparen], .start)
  else if c = ')' then ([.rparen], .start)
  else if c = ',' then ([.comma], .start)
  else if c = ';' then ([.semi], .start)
  else if c = '*' then ([.star], .start)
  else if c = '=' then ([], .eq)
  else if c = '-' then ([], .minus)
  else if c = '/' then ([], .slash)
  else if c = '<' then ([], .lt)
  else if c = '>' then ([], .gt)
  else if c = '!' then ([], .bang)
  else if c = '|' then ([], .bar)
  else if c = '.' then ([], .dot)
  else if c = '"' || c = backquote then ([], .quoted c [])
  else if c = '[' then ([], .bracketed [])
  else if c ∈ ['?', ':', '@', '#'] then ([], .var [c])
  else if c ∈ ['+', '%', '&', '~'] then ([.op [c]], .start)
  else ([], .illegal)

/-- The token before `c` is complete: emit it and start with `c`. -/
def endThen (t : Token) (c : Char) : List Token × Lex := (t :: (startStep c).1, (startStep c).2)

/-- The token a number is: digits alone are an integer. -/
def numToken (w : Str) : Token := if w.all Char.isDigit then .num w else .op w

def lexStep : Lex → Char → List Token × Lex
  | .start, c => startStep c
  | .word w, c =>
    if isIdChar c then ([], .word (w ++ [c]))
    else if c = '\'' ∧ lower w = ['x'] then ([], .blob [])
    else endThen (classify w) c
  | .num w, c => if isIdChar c || c == '.' then ([], .num (w ++ [c])) else endThen (numToken w) c
  | .dot, c => if c.isDigit then ([], .num ['.', c]) else endThen (.op ['.']) c
  | .var w, c => if isIdChar c then ([], .var (w ++ [c])) else endThen (.op w) c
  | .str s, c => if c = '\'' then ([], .strQuote s) else ([], .str (s ++ [c]))
  | .strQuote s, c => if c = '\'' then ([], .str (s ++ [c])) else endThen (.str s) c
  | .blob s, c => if c = '\'' then ([.blob s], .start) else ([], .blob (s ++ [c]))
  | .quoted q w, c => if c = q then ([], .quotedQuote q w) else ([], .quoted q (w ++ [c]))
  | .quotedQuote q w, c => if c = q then ([], .quoted q (w ++ [c])) else endThen (.id w) c
  | .bracketed w, c => if c = ']' then ([.id w], .start) else ([], .bracketed (w ++ [c]))
  | .minus, c =>
    if c = '-' then ([], .lineComment)
    else if c = '>' then ([.op ['-', '>']], .start)
    else endThen .minus c
  | .lineComment, c => if c = '\n' then ([], .start) else ([], .lineComment)
  | .slash, c => if c = '*' then ([], .blockComment) else endThen (.op ['/']) c
  | .blockComment, c => if c = '*' then ([], .blockStar) else ([], .blockComment)
  | .blockStar, c =>
    if c = '/' then ([], .start) else if c = '*' then ([], .blockStar) else ([], .blockComment)
  | .eq, c => if c = '=' then ([.eq], .start) else endThen .eq c
  | .lt, c => if c ∈ ['=', '>', '<'] then ([.op ['<', c]], .start) else endThen (.op ['<']) c
  | .gt, c => if c ∈ ['=', '>'] then ([.op ['>', c]], .start) else endThen (.op ['>']) c
  | .bang, c => if c = '=' then ([.op ['!', '=']], .start) else ([], .illegal)
  | .bar, c => if c = '|' then ([.op ['|', '|']], .start) else endThen (.op ['|']) c
  | .illegal, _ => ([], .illegal)

def lexFlush : Lex → List Token
  | .start | .lineComment | .blockComment | .blockStar => []
  | .word w => [classify w]
  | .num w => [numToken w]
  | .dot => [.op ['.']]
  | .var w => [.op w]
  | .strQuote s => [.str s]
  | .quotedQuote _ w => [.id w]
  | .minus => [.minus]
  | .slash => [.op ['/']]
  | .eq => [.eq]
  | .lt => [.op ['<']]
  | .gt => [.op ['>']]
  | .bar => [.op ['|']]
  | .str _ | .blob _ | .quoted _ _ | .bracketed _ | .bang | .illegal => [.illegal]

def lexer : Machine Lex Char Token := ⟨lexStep, lexFlush⟩

/-- The tokens of a text. -/
def tokenize (text : Str) : List Token := lexer.all .start text

example : tokenize (lit "select a, 'it''s' from t -- where") =
    [.kw .SELECT, .id (lit "a"), .comma, .str (lit "it's"), .kw .FROM, .id (lit "t")] := by
  decide +kernel

end Sql
