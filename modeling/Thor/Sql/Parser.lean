import Thor.Sql.Lexer

/-!
# Statements

The fragment of SQL whose meaning `Sql.Eval` gives: `SELECT`, `INSERT`, `UPDATE`
and `DELETE` on one table, with literal values, and conditions built with `=`,
`AND` and `OR` from columns, literals and one-column sub-selects. A text outside
the fragment has no parse here (`parse` is `none`), and `Sql.Eval` assumes
nothing about it.

The parser is a recursive descent on the token list; the fuel it carries is
larger than any text needs.
-/

namespace Sql

open CLib

/-- A literal. -/
inductive Lit where
  | str (s : Str)
  | int (i : Int)
  deriving DecidableEq

/-- Operands and conditions. `sub c t w` is `(SELECT c FROM t WHERE w)`, and `tt`
is the condition of a statement without `WHERE`. -/
inductive Expr where
  | col (c : Str)
  | lit (l : Lit)
  | sub (c t : Str) (w : Expr)
  | eq (a b : Expr)
  | and (a b : Expr)
  | or (a b : Expr)
  | tt
  deriving DecidableEq

/-- A statement. The columns of a `SELECT *` are `none`. -/
inductive Stmt where
  | select (cols : Option (List Str)) (t : Str) (w : Expr)
  | insert (t : Str) (cols : List Str) (vals : List Lit)
  | update (t c : Str) (v : Lit) (w : Expr)
  | delete (t : Str) (w : Expr)
  deriving DecidableEq

/-- An integer literal; SQLite reads one past 64 bits as a floating-point number. -/
def intLit (i : Int) : Option Lit :=
  if -2 ^ 63 < i ∧ i < 2 ^ 63 then some (.int i) else none

def parseLit : List Token → Option (Lit × List Token)
  | .str s :: ts => some (.str s, ts)
  | .num w :: ts => (intLit (digitsVal w)).map (·, ts)
  | .minus :: .num w :: ts => (intLit (-(digitsVal w : Int))).map (·, ts)
  | _ => none

mutual

def parseOperand : Nat → List Token → Option (Expr × List Token)
  | 0, _ => none
  | n + 1, .lparen :: .kw .SELECT :: .id c :: .kw .FROM :: .id t :: .kw .WHERE :: ts =>
    match parseOr n ts with
    | some (w, .rparen :: ts) => some (.sub c t w, ts)
    | _ => none
  | _ + 1, .id c :: ts => some (.col c, ts)
  | _ + 1, ts => (parseLit ts).map fun p => (.lit p.1, p.2)

def parseCmp : Nat → List Token → Option (Expr × List Token)
  | 0, _ => none
  | n + 1, ts =>
    match parseOperand n ts with
    | some (a, .eq :: ts) =>
      match parseOperand n ts with
      | some (b, ts) => some (.eq a b, ts)
      | none => none
    | _ => none

def parseAnd : Nat → List Token → Option (Expr × List Token)
  | 0, _ => none
  | n + 1, ts =>
    match parseCmp n ts with
    | some (a, ts) => parseAndTail n a ts
    | none => none

def parseAndTail : Nat → Expr → List Token → Option (Expr × List Token)
  | 0, _, _ => none
  | n + 1, a, .kw .AND :: ts =>
    match parseCmp n ts with
    | some (b, ts) => parseAndTail n (.and a b) ts
    | none => none
  | _ + 1, a, ts => some (a, ts)

def parseOr : Nat → List Token → Option (Expr × List Token)
  | 0, _ => none
  | n + 1, ts =>
    match parseAnd n ts with
    | some (a, ts) => parseOrTail n a ts
    | none => none

def parseOrTail : Nat → Expr → List Token → Option (Expr × List Token)
  | 0, _, _ => none
  | n + 1, a, .kw .OR :: ts =>
    match parseAnd n ts with
    | some (b, ts) => parseOrTail n (.or a b) ts
    | none => none
  | _ + 1, a, ts => some (a, ts)

end

def parseWhere (n : Nat) : List Token → Option (Expr × List Token)
  | .kw .WHERE :: ts => parseOr n ts
  | ts => some (.tt, ts)

/-- Names between commas. -/
def parseNames : List Token → Option (List Str × List Token)
  | .id c :: .comma :: ts => (parseNames ts).map fun p => (c :: p.1, p.2)
  | .id c :: ts => some ([c], ts)
  | _ => none

/-- Literals between commas; the second argument is at least the number of tokens. -/
def parseLits : Nat → List Token → Option (List Lit × List Token)
  | 0, _ => none
  | n + 1, ts =>
    match parseLit ts with
    | some (l, .comma :: ts) => (parseLits n ts).map fun p => (l :: p.1, p.2)
    | some (l, ts) => some ([l], ts)
    | none => none

def parseStmt (n : Nat) : List Token → Option (Stmt × List Token)
  | .kw .SELECT :: .star :: .kw .FROM :: .id t :: ts =>
    (parseWhere n ts).map fun p => (.select none t p.1, p.2)
  | .kw .SELECT :: ts =>
    match parseNames ts with
    | some (cs, .kw .FROM :: .id t :: ts) =>
      (parseWhere n ts).map fun p => (.select (some cs) t p.1, p.2)
    | _ => none
  | .kw .INSERT :: .kw .INTO :: .id t :: .lparen :: ts =>
    match parseNames ts with
    | some (cs, .rparen :: .kw .VALUES :: .lparen :: ts) =>
      match parseLits n ts with
      | some (vs, .rparen :: ts) => some (.insert t cs vs, ts)
      | _ => none
    | _ => none
  | .kw .UPDATE :: .id t :: .kw .SET :: .id c :: .eq :: ts =>
    match parseLit ts with
    | some (v, ts) => (parseWhere n ts).map fun p => (.update t c v p.1, p.2)
    | none => none
  | .kw .DELETE :: .kw .FROM :: .id t :: ts =>
    (parseWhere n ts).map fun p => (.delete t p.1, p.2)
  | _ => none

/-- Statements between semicolons. -/
def parseStmts : Nat → List Token → Option (List Stmt)
  | _, [] => some []
  | 0, _ => none
  | n + 1, .semi :: ts => parseStmts n ts
  | n + 1, ts =>
    match parseStmt n ts with
    | some (s, []) => some [s]
    | some (s, .semi :: ts) => (parseStmts n ts).map (s :: ·)
    | _ => none

/-- The statements of a token list. -/
def parse (ts : List Token) : Option (List Stmt) := parseStmts (8 * ts.length + 8) ts

/-- Statements that begin with another keyword are outside the fragment. -/
theorem parse_reserved (c : Str) (ts : List Token) : parse (.reserved c :: ts) = none := by
  show parseStmts (8 * ts.length + 15 + 1) (.reserved c :: ts) = none
  rw [parseStmts]
  · rfl
  · exact nofun
  · exact nofun

/-! ## Insertions -/

theorem parseLit_str (s : Str) (ts : List Token) : parseLit (.str s :: ts) = some (.str s, ts) := rfl

/-- A literal and a comma in front of other literals. -/
theorem parseLits_cons {n : Nat} {ts rest : List Token} {l : Lit}
    (h : parseLit ts = some (l, .comma :: rest)) :
    parseLits (n + 1) ts = (parseLits n rest).map fun p => (l :: p.1, p.2) := by
  rw [parseLits, h]

/-- An `INSERT`, its names and its literals being read. -/
theorem parse_insert {t : Str} {cols : List Str} {vals : List Lit} {names lits : List Token}
    (hnames : parseNames names = some (cols, .rparen :: .kw .VALUES :: .lparen :: lits))
    (hlits : ∀ n, parseLits (n + vals.length) lits = some (vals, [.rparen, .semi]))
    (hlen : vals.length ≤ 39) :
    parse (.kw .INSERT :: .kw .INTO :: .id t :: .lparen :: names) = some [.insert t cols vals] := by
  obtain ⟨n, hn⟩ : ∃ n, 8 * (names.length + 4) + 7 = n + vals.length :=
    ⟨8 * (names.length + 4) + 7 - vals.length, by omega⟩
  have hstmt : parseStmt (n + vals.length)
      (.kw .INSERT :: .kw .INTO :: .id t :: .lparen :: names) =
        some (.insert t cols vals, [.semi]) := by
    rw [parseStmt, hnames]
    dsimp only
    rw [hlits]
  show parseStmts (8 * (names.length + 4) + 7 + 1) _ = _
  rw [hn, parseStmts, hstmt]
  · dsimp only
    rw [parseStmts]
    rfl
  · exact nofun
  · exact nofun

example : parse (tokenize (lit "UPDATE t SET c='x' where ID=(SELECT ID FROM t where u='y' );")) =
    some [.update (lit "t") (lit "c") (.str (lit "x"))
      (.eq (.col (lit "ID")) (.sub (lit "ID") (lit "t")
        (.eq (.col (lit "u")) (.lit (.str (lit "y"))))))] := by
  decide +kernel

end Sql
