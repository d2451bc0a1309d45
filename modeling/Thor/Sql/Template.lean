import Thor.Sql.Lexer

/-!
# Statements with strings put between quotes

A program that builds SQL text writes fixed pieces around strings it was given:
`... where UPC='` *field* `' );`. A `Template` is such a statement with its
fields left open, together with the tokens it is meant to have. The question is
when the built text still has them, each field being one literal whose value is
that field.

The answer is exact (`Template.tokenize_fill_iff`): it does if and only if no
field contains a quote. One direction runs the tokeniser over the pieces. The
other compares two readings of the same text: a literal with value `f` has the
quotes of `f` doubled, the built text has them single, and the text after the
closing quote does not begin with one (`quote_free_of_doubled`).
-/

namespace Sql

open CLib

/-- The quote that delimits a string literal. -/
def quote : Char := '\''

/-- `f` has no quote in it. -/
def QuoteFree (f : Str) : Prop := quote ∉ f

instance (f : Str) : Decidable (QuoteFree f) := inferInstanceAs (Decidable (quote ∉ f))

theorem QuoteFree.of_subset {f g : Str} (h : QuoteFree g) (hsub : ∀ c ∈ f, c ∈ g) :
    QuoteFree f :=
  fun hc => h (hsub _ hc)

theorem QuoteFree.append {f g : Str} (hf : QuoteFree f) (hg : QuoteFree g) :
    QuoteFree (f ++ g) :=
  fun h => (List.mem_append.mp h).elim hf hg

/-! ## The tokeniser inside a literal -/

theorem step_start (c : Char) : lexer.step .start c = startStep c := rfl

theorem step_str (s : Str) (c : Char) : lexer.step (.str s) c =
    if c = quote then ([], .strQuote s) else ([], .str (s ++ [c])) := rfl

theorem step_strQuote (s : Str) (c : Char) : lexer.step (.strQuote s) c =
    if c = quote then ([], .str (s ++ [c])) else endThen (.str s) c := rfl

/-- A quote-free string only extends the literal it stands in. -/
theorem run_str_of_quoteFree : ∀ {f : Str}, QuoteFree f → ∀ s : Str,
    lexer.run (.str s) f = ([], .str (s ++ f))
  | [], _, s => by simp [Machine.run]
  | c :: f, h, s => by
    have hc : c ≠ quote := fun hc => h (hc ▸ List.mem_cons_self ..)
    have hf : QuoteFree f := h.of_subset fun x hx => List.mem_cons_of_mem _ hx
    rw [Machine.run, step_str, if_neg hc, run_str_of_quoteFree hf]
    simp

/-- A quote that is not doubled closes the literal. -/
theorem all_str_close {c : Char} (hc : c ≠ quote) (s t : Str) :
    lexer.all (.str s) (quote :: c :: t) = .str s :: lexer.all .start (c :: t) := by
  rw [Machine.all_cons, step_str, if_pos rfl, Machine.all_cons, step_strQuote, if_neg hc,
    Machine.all_cons, step_start]
  rfl

/-- A quote-free field and the quote after it are one literal. -/
theorem all_field {f : Str} (hf : QuoteFree f) {c : Char} (hc : c ≠ quote) (t : Str) :
    lexer.all (.str []) (f ++ quote :: c :: t) = .str f :: lexer.all .start (c :: t) := by
  rw [Machine.all_append, run_str_of_quoteFree hf, List.nil_append, List.nil_append,
    all_str_close hc]

/-! ## What a literal looks like in the text -/

/-- `w` as it is written inside a literal: every quote doubled. -/
def doubled : Str → Str
  | [] => []
  | c :: w => if c = quote then quote :: quote :: doubled w else c :: doubled w

/-- If the tokeniser, inside a literal, completes one with value `v`, then it
has read the rest of `v` doubled and a closing quote. -/
theorem str_token_inv : ∀ {t s v : Str} {ts : List Token},
    lexer.all (.str s) t = .str v :: ts →
    ∃ w rest, v = s ++ w ∧ t = doubled w ++ quote :: rest
  | [], s, v, ts, h => by
    have : Token.illegal = Token.str v := (List.cons.inj h).1
    cases this
  | c :: t, s, v, ts, h => by
    by_cases hc : c = quote
    · rw [Machine.all_cons, step_str, if_pos hc] at h
      cases t with
      | nil =>
        have hv : Token.str s = Token.str v := (List.cons.inj h).1
        cases hv
        exact ⟨[], [], by simp, by simp [doubled, hc]⟩
      | cons d t =>
        by_cases hd : d = quote
        · rw [Machine.all_cons, step_strQuote, if_pos hd] at h
          obtain ⟨w, rest, rfl, rfl⟩ := str_token_inv h
          exact ⟨quote :: w, rest, by simp [hd], by simp [doubled, hc, hd]⟩
        · rw [Machine.all_cons, step_strQuote, if_neg hd] at h
          have hv : Token.str s = Token.str v := (List.cons.inj h).1
          cases hv
          exact ⟨[], d :: t, by simp, by simp [doubled, hc]⟩
    · rw [Machine.all_cons, step_str, if_neg hc] at h
      obtain ⟨w, rest, rfl, rfl⟩ := str_token_inv h
      exact ⟨c :: w, rest, by simp, by simp [doubled, hc]⟩

/-- A text that shows `f` both as it is and with its quotes doubled, each time
up to a closing quote, has no quote in `f`. The induction carries the quotes by
which the doubled reading is behind. -/
theorem quote_free_of_doubled {c : Char} (hc : c ≠ quote) {t rest : Str} :
    ∀ {f : Str} {k : Nat},
      f ++ quote :: c :: t = List.replicate k quote ++ (doubled f ++ quote :: rest) →
      k = 0 ∧ QuoteFree f
  | [], 0, _ => ⟨rfl, by simp [QuoteFree]⟩
  | [], k + 1, h => by
    have h' : c :: t = List.replicate k quote ++ quote :: rest := by
      simpa [List.replicate_succ, doubled] using h
    cases k with
    | zero => exact absurd (List.cons.inj h').1 hc
    | succ k => exact absurd (List.cons.inj h').1 hc
  | x :: f, 0, h => by
    by_cases hx : x = quote
    · subst hx
      have h' : f ++ quote :: c :: t = List.replicate 1 quote ++ (doubled f ++ quote :: rest) := by
        simpa [doubled] using h
      exact absurd (quote_free_of_doubled hc h').1 (by decide)
    · have h' : f ++ quote :: c :: t = List.replicate 0 quote ++ (doubled f ++ quote :: rest) := by
        simpa [doubled, hx] using h
      refine ⟨rfl, fun hmem => ?_⟩
      rcases List.mem_cons.mp hmem with heq | hmem
      · exact hx heq.symm
      · exact (quote_free_of_doubled hc h').2 hmem
  | x :: f, k + 1, h => by
    have hx : x = quote := by
      simpa [List.replicate_succ] using congrArg List.head? h
    subst hx
    have h' : f ++ quote :: c :: t
        = List.replicate (k + 2) quote ++ (doubled f ++ quote :: rest) := by
      have htail : f ++ quote :: c :: t
          = List.replicate k quote ++ (doubled (quote :: f) ++ quote :: rest) := by
        simpa [List.replicate_succ] using h
      rw [htail, List.replicate_add]
      simp [doubled, List.replicate]
    -- a doubled quote in the field: the reading falls behind by one more
    exact absurd (quote_free_of_doubled hc h').1 (by omega)

/-- A field read as a literal with itself as value has no quote. -/
theorem quoteFree_of_all_field {f : Str} {c : Char} (hc : c ≠ quote) {t : Str}
    {ts : List Token} (h : lexer.all (.str []) (f ++ quote :: c :: t) = .str f :: ts) :
    QuoteFree f := by
  obtain ⟨w, rest, hw, ht⟩ := str_token_inv h
  rw [List.nil_append] at hw
  subst hw
  exact (quote_free_of_doubled hc (k := 0) (by simpa using ht)).2

/-! ## Templates -/

/-- A fixed piece after a field: the text behind the closing quote, and the
tokens it is made of. -/
structure Gap where
  text : Str
  toks : List Token

/-- The text begins with something other than a quote. -/
def Opens (t : Str) : Prop := t.head?.any (· ≠ quote) = true

instance (t : Str) : Decidable (Opens t) := inferInstanceAs (Decidable (_ = true))

theorem Opens.exists_cons {t : Str} (h : Opens t) : ∃ c t', t = c :: t' ∧ c ≠ quote := by
  cases t with
  | nil => exact absurd h (by simp [Opens])
  | cons c t' => exact ⟨c, t', rfl, by simpa [Opens] using h⟩

/-- Every piece but the last ends with the quote that opens the next field; the
last one ends the statement. -/
def GapsOk : List Gap → Prop
  | [] => False
  | [g] => Opens g.text ∧ lexer.all .start g.text = g.toks
  | g :: gs => Opens g.text ∧ lexer.run .start g.text = (g.toks, .str []) ∧ GapsOk gs

instance : ∀ gs : List Gap, Decidable (GapsOk gs)
  | [] => inferInstanceAs (Decidable False)
  | [_] => inferInstanceAs (Decidable (_ ∧ _))
  | _ :: g' :: gs =>
    have : Decidable (GapsOk (g' :: gs)) := instDecidableGapsOk (g' :: gs)
    inferInstanceAs (Decidable (_ ∧ _ ∧ GapsOk (g' :: gs)))

/-- A statement with fields left open: `head` ends with the quote that opens the
first field. -/
structure Template where
  head : Str
  headToks : List Token
  gaps : List Gap
  head_ok : lexer.run .start head = (headToks, .str [])
  gaps_ok : GapsOk gaps

/-- The fields and the pieces after them, as text. -/
def fillText : List Str → List Gap → Str
  | f :: fs, g :: gs => f ++ quote :: (g.text ++ fillText fs gs)
  | _, _ => []

/-- The fields and the pieces after them, as tokens. -/
def fillToks : List Str → List Gap → List Token
  | f :: fs, g :: gs => .str f :: (g.toks ++ fillToks fs gs)
  | _, _ => []

/-- The built text. -/
def Template.fill (T : Template) (fs : List Str) : Str := T.head ++ fillText fs T.gaps

/-- The tokens it is meant to have. -/
def Template.toks (T : Template) (fs : List Str) : List Token :=
  T.headToks ++ fillToks fs T.gaps

theorem all_fillText_iff : ∀ {gs : List Gap}, GapsOk gs → ∀ {fs : List Str},
    fs.length = gs.length →
    (lexer.all (.str []) (fillText fs gs) = fillToks fs gs ↔ ∀ f ∈ fs, QuoteFree f)
  | [g], ⟨hopen, hlast⟩, [f], _ => by
    obtain ⟨c, t, ht, hc⟩ := hopen.exists_cons
    simp only [fillText, fillToks, List.append_nil, List.mem_singleton, forall_eq]
    rw [ht] at hlast ⊢
    constructor
    · exact quoteFree_of_all_field hc
    · intro hf
      rw [all_field hf hc, hlast]
  | g :: g' :: gs, ⟨hopen, hrun, hgs⟩, f :: fs, hlen => by
    obtain ⟨c, t, ht, hc⟩ := hopen.exists_cons
    have ih := all_fillText_iff hgs (show fs.length = (g' :: gs).length from Nat.succ.inj hlen)
    -- the piece behind the field opens the next one
    have hrest : lexer.all .start (g.text ++ fillText fs (g' :: gs))
        = g.toks ++ lexer.all (.str []) (fillText fs (g' :: gs)) := by
      rw [Machine.all_append, hrun]
    rw [ht, List.cons_append] at hrest
    have hcons : fillText (f :: fs) (g :: g' :: gs)
        = f ++ quote :: c :: (t ++ fillText fs (g' :: gs)) := by
      simp [fillText, ht]
    rw [hcons, List.forall_mem_cons]
    constructor
    · intro h
      have hf : QuoteFree f := quoteFree_of_all_field hc h
      rw [all_field hf hc, hrest] at h
      exact ⟨hf, ih.mp (List.append_cancel_left (List.cons.inj h).2)⟩
    · rintro ⟨hf, hfs⟩
      rw [all_field hf hc, hrest, ih.mpr hfs]
      rfl

/-- **Field text stays data exactly when it has no quote.** -/
theorem Template.tokenize_fill_iff (T : Template) {fs : List Str}
    (hlen : fs.length = T.gaps.length) :
    tokenize (T.fill fs) = T.toks fs ↔ ∀ f ∈ fs, QuoteFree f := by
  have hhead : tokenize (T.fill fs)
      = T.headToks ++ lexer.all (.str []) (fillText fs T.gaps) := by
    show lexer.all .start (T.head ++ _) = _
    rw [Machine.all_append, T.head_ok]
  rw [hhead, Template.toks, List.append_cancel_left_eq]
  exact all_fillText_iff T.gaps_ok hlen

/-! ## How long the text is -/

/-- The length of the statement with nothing in its fields. -/
def Template.fixed (T : Template) : Nat := (T.fill (T.gaps.map fun _ => [])).length

theorem length_fillText : ∀ {gs : List Gap} {fs : List Str}, fs.length = gs.length →
    (fillText fs gs).length = (fillText (gs.map fun _ => []) gs).length + fs.flatten.length
  | [], [], _ => rfl
  | g :: gs, f :: fs, hlen => by
    have ih := length_fillText (show fs.length = gs.length from Nat.succ.inj hlen)
    simp only [fillText, List.map_cons, List.flatten_cons, List.length_append, List.length_cons,
      List.length_nil, ih]
    omega

theorem Template.length_fill (T : Template) {fs : List Str} (hlen : fs.length = T.gaps.length) :
    (T.fill fs).length = T.fixed + fs.flatten.length := by
  rw [Template.fixed, Template.fill, Template.fill, List.length_append, List.length_append,
    length_fillText hlen, Nat.add_assoc]

/-! ## Numbers between the fields -/

theorem step_num (w : Str) (c : Char) : lexer.step (.num w) c =
    if isIdChar c || c == '.' then ([], .num (w ++ [c])) else endThen (numToken w) c := rfl

theorem startStep_digit {c : Char} (h : c.isDigit = true) : startStep c = ([], .num [c]) := by
  have hquote : c ≠ '\'' := by
    rintro rfl
    exact absurd h (by decide)
  have hblank : isBlank c = false := by
    rw [← Bool.not_eq_true]
    intro hb
    have hb' : c = ' ' ∨ c = '\t' ∨ c = '\n' ∨ c = '\r' ∨ c = '\x0c' := by
      simpa [isBlank, or_assoc] using hb
    rcases hb' with rfl | rfl | rfl | rfl | rfl <;> exact absurd h (by decide)
  simp [startStep, hquote, hblank, h]

theorem isIdChar_of_isDigit {c : Char} (h : c.isDigit = true) : isIdChar c = true := by
  simp [isIdChar, Char.isAlphanum, h]

theorem run_num_digits : ∀ {n : Str}, (∀ c ∈ n, c.isDigit = true) → ∀ w : Str,
    lexer.run (.num w) n = ([], .num (w ++ n))
  | [], _, w => by simp [Machine.run]
  | c :: n, h, w => by
    have hc : isIdChar c = true := isIdChar_of_isDigit (h c (List.mem_cons_self ..))
    have ih := run_num_digits (fun x hx => h x (List.mem_cons_of_mem _ hx)) (w ++ [c])
    rw [Machine.run, step_num, hc, Bool.true_or, if_pos rfl, ih]
    simp

/-- A run of digits up to a character that ends it. -/
theorem run_digits {n : Str} (hne : n ≠ []) (hn : ∀ c ∈ n, c.isDigit = true) {c : Char}
    (hc : (isIdChar c || c == '.') = false) (t : Str) :
    lexer.run .start (n ++ c :: t)
      = (.num n :: (lexer.run .start (c :: t)).1, (lexer.run .start (c :: t)).2) := by
  cases n with
  | nil => exact absurd rfl hne
  | cons d n =>
    have hd := startStep_digit (hn d (List.mem_cons_self ..))
    have hrun := run_num_digits (fun x hx => hn x (List.mem_cons_of_mem _ hx)) [d]
    have htok : numToken (d :: n) = .num (d :: n) := by
      rw [numToken, if_pos (List.all_eq_true.mpr hn)]
    rw [List.cons_append, Machine.run, step_start, hd, Machine.run_append, hrun]
    simp only [List.nil_append, Machine.run, step_num, hc,
      Bool.false_eq_true, if_false, htok, endThen, step_start, List.cons_append]

/-- The tokens of a number written by `%d`. -/
def intTokens : Int → List Token
  | .ofNat n => [.num (Nat.toDigits 10 n)]
  | .negSucc n => [.minus, .num (Nat.toDigits 10 (n + 1))]

@[simp] theorem intTokens_natCast (n : Nat) : intTokens n = [.num (Nat.toDigits 10 n)] := rfl

@[simp] theorem intTokens_negSucc (n : Nat) :
    intTokens (.negSucc n) = [.minus, .num (Nat.toDigits 10 (n + 1))] := rfl

theorem run_fmtD (i : Int) {c : Char} (hc : (isIdChar c || c == '.') = false) (t : Str) :
    lexer.run .start (fmtD i ++ c :: t)
      = (intTokens i ++ (lexer.run .start (c :: t)).1, (lexer.run .start (c :: t)).2) := by
  cases i with
  | ofNat n =>
    exact run_digits Nat.toDigits_ne_nil (fun _ hd => isDigit_of_mem_toDigits hd) hc t
  | negSucc n =>
    have hrun := run_digits (n := Nat.toDigits 10 (n + 1)) Nat.toDigits_ne_nil
      (fun _ hd => isDigit_of_mem_toDigits hd) hc t
    obtain ⟨d, m, hdm⟩ : ∃ d m, Nat.toDigits 10 (n + 1) = d :: m := by
      cases hd : Nat.toDigits 10 (n + 1) with
      | nil => exact absurd hd Nat.toDigits_ne_nil
      | cons d m => exact ⟨d, m, rfl⟩
    have hd := startStep_digit
      (isDigit_of_mem_toDigits (n := n + 1) (hdm ▸ List.mem_cons_self ..))
    have hminus : lexer.run .start ('-' :: (Nat.toDigits 10 (n + 1) ++ c :: t))
        = (.minus :: (lexer.run .start (Nat.toDigits 10 (n + 1) ++ c :: t)).1,
          (lexer.run .start (Nat.toDigits 10 (n + 1) ++ c :: t)).2) := by
      have hne : d ≠ '-' ∧ d ≠ '>' := by
        constructor <;> rintro rfl <;>
          exact absurd (isDigit_of_mem_toDigits (n := n + 1) (hdm ▸ List.mem_cons_self ..))
            (by decide)
      have hstep : lexer.step .minus d = ([.minus], .num [d]) := by
        show (if d = '-' then _ else if d = '>' then _ else endThen .minus d) = _
        rw [if_neg hne.1, if_neg hne.2, endThen, hd]
      have hstart : lexer.step .start '-' = ([], .minus) := by decide
      rw [hdm, List.cons_append, Machine.run, hstart, Machine.run, hstep, Machine.run,
        step_start, hd]
      rfl
    show lexer.run .start ('-' :: (Nat.toDigits 10 (n + 1) ++ c :: t)) = _
    rw [hminus, hrun]
    rfl

end Sql
