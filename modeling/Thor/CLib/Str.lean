import Mathlib.Algebra.Group.Int.Defs
import Mathlib.Algebra.Group.Nat.Defs
import Mathlib.Data.List.Basic
import Mathlib.Data.List.Infix
import Mathlib.Data.List.TakeWhile

/-!
# C strings

The part of `<string.h>`, `<stdio.h>` and `<stdlib.h>` that a text protocol
server leans on, over lists of characters:

- `Str`: the bytes of a C string before its terminator. A `char` is any `Char`:
  every comparison made here is with an ASCII character, so nothing depends on
  there being only 256 of them.
- `strstr`, `strncmpEq`: searching and comparing.
- `sprintf`: the format language restricted to `%s`, `%d` and `%ld`, with the
  arguments already rendered.
- `strcat`, `fits`: appending to, and writing into, an array of known size.
- `atoi`, `fmtD`: decimal numbers, with the two narrowings (`strtol` saturates
  to a `long`, the result is cut to an `int`).
-/

namespace CLib

/-- The contents of a C string: its bytes up to, and without, the terminator. -/
abbrev Str := List Char

/-- Decided along the text, not over all the characters there are. -/
instance (priority := high) Str.decidableBAll {p : Char → Prop} [DecidablePred p] (s : Str) :
    Decidable (∀ c ∈ s, p c) :=
  List.decidableBAll p s

/-- A string literal. -/
def lit (s : String) : Str := s.toList

/-- A literal as a list: rewriting with it spares the kernel the decoding of the string. -/
theorem lit_ofList (l : Str) : lit (String.ofList l) = l := String.toList_ofList

/-- `strstr(s, m) != NULL`: `m` occurs in `s`. -/
def strstr (s m : Str) : Bool := decide (m <:+: s)

@[simp] theorem strstr_iff {s m : Str} : strstr s m = true ↔ m <:+: s := by
  simp [strstr]

@[simp] theorem strstr_eq_false {s m : Str} : strstr s m = false ↔ ¬ m <:+: s := by
  simp [strstr]

/-- `strncmp(key, name, len) == 0`, for `len` at most the length of `key`. -/
def strncmpEq (key name : Str) (len : Nat) : Bool := key.take len == name.take len

/-- `strnlen(s, n)`. -/
def strnlen (s : Str) (n : Nat) : Nat := min s.length n

/-- `sprintf(fmt, ...)` for the conversions `%s`, `%d` and `%ld`; each argument
is given as the text it is rendered to. -/
def sprintf : Str → List Str → Str
  | '%' :: 's' :: f, a :: as => a ++ sprintf f as
  | '%' :: 'd' :: f, a :: as => a ++ sprintf f as
  | '%' :: 'l' :: 'd' :: f, a :: as => a ++ sprintf f as
  | c :: f, as => c :: sprintf f as
  | [], _ => []

theorem sprintf_cons {c : Char} (hc : c ≠ '%') (f : Str) (as : List Str) :
    sprintf (c :: f) as = c :: sprintf f as := by
  rw [sprintf]
  · exact fun _ _ _ _ h => absurd h hc
  · exact fun _ _ _ _ h => absurd h hc
  · exact fun _ _ _ _ h => absurd h hc

/-- What stands before the next conversion is copied. -/
theorem sprintf_append : ∀ {pre : Str} (f : Str) (as : List Str), '%' ∉ pre →
    sprintf (pre ++ f) as = pre ++ sprintf f as
  | [], _, _, _ => rfl
  | c :: pre, f, as, h => by
    have hc : c ≠ '%' := fun heq => h (heq ▸ List.mem_cons_self ..)
    have ih := sprintf_append f as fun hmem => h (List.mem_cons_of_mem c hmem)
    rw [List.cons_append, sprintf_cons hc, ih]
    rfl

/-- What `%s` renders for a `char *` that may be `NULL`. -/
def fmtS : Option Str → Str
  | some s => s
  | none => lit "(null)"

@[simp] theorem fmtS_some (s : Str) : fmtS (some s) = s := rfl

/-- What `%d` renders. -/
def fmtD : Int → Str
  | .ofNat n => Nat.toDigits 10 n
  | .negSucc n => '-' :: Nat.toDigits 10 (n + 1)

/-- A text and its terminator fit an array of `cap` bytes. -/
def fits (cap : Nat) (s : Str) : Bool := decide (s.length < cap)

@[simp] theorem fits_iff {cap : Nat} {s : Str} : fits cap s = true ↔ s.length < cap := by
  simp [fits]

/-- `strcat` into an array of `cap` bytes, `none` when the result does not fit. -/
def strcat (cap : Nat) (buf s : Str) : Option Str :=
  if fits cap (buf ++ s) then some (buf ++ s) else none

theorem strcat_eq_some {cap : Nat} {buf s t : Str} :
    strcat cap buf s = some t ↔ t = buf ++ s ∧ (buf ++ s).length < cap := by
  unfold strcat
  by_cases h : (buf ++ s).length < cap
  · rw [if_pos (fits_iff.mpr h)]
    exact ⟨fun heq => ⟨(Option.some.inj heq).symm, h⟩, fun heq => congrArg some heq.1.symm⟩
  · rw [if_neg (fun hf => h (fits_iff.mp hf))]
    exact ⟨fun heq => (nomatch heq), fun heq => absurd heq.2 h⟩

theorem strcat_eq_none {cap : Nat} {buf s : Str} :
    strcat cap buf s = none ↔ ¬ (buf ++ s).length < cap := by
  rw [Option.eq_none_iff_forall_ne_some]
  constructor
  · exact fun h hfit => h _ (strcat_eq_some.mpr ⟨rfl, hfit⟩)
  · exact fun hlong t ht => hlong (strcat_eq_some.mp ht).2

/-! ## Decimal numbers -/

/-- `isspace` in the C locale. -/
def isSpace (c : Char) : Bool :=
  c == ' ' || c == '\t' || c == '\n' || c == '\r' || c == '\x0b' || c == '\x0c'

/-- The value of the leading run of digits. -/
def digitsVal (s : Str) : Nat :=
  Nat.ofDigitChars 10 (s.takeWhile Char.isDigit) 0

/-- `strtol` saturates at the ends of a 64-bit `long`. -/
def clampLong (i : Int) : Int := max (-2 ^ 63) (min (2 ^ 63 - 1) i)

/-- The low 32 bits of a `long`, read as an `int`. -/
def toInt32 (i : Int) : Int := Int.bmod i (2 ^ 32)

/-- `atoi`: leading blanks, an optional sign, a run of digits; anything else is
`0`, and what follows the digits is ignored. -/
def atoi (s : Str) : Int :=
  match s.dropWhile isSpace with
  | '-' :: t => toInt32 (clampLong (-(digitsVal t : Int)))
  | '+' :: t => toInt32 (clampLong (digitsVal t))
  | t => toInt32 (clampLong (digitsVal t))

/-- An `int`. -/
def IsInt32 (i : Int) : Prop := -2 ^ 31 ≤ i ∧ i < 2 ^ 31

instance (i : Int) : Decidable (IsInt32 i) := inferInstanceAs (Decidable (_ ∧ _))

theorem toInt32_clampLong {i : Int} (h : IsInt32 i) : toInt32 (clampLong i) = i := by
  obtain ⟨h₁, h₂⟩ := h
  have hc : clampLong i = i := by
    unfold clampLong
    omega
  rw [hc, toInt32, Int.bmod_def]
  split <;> omega

theorem isInt32_atoi (s : Str) : IsInt32 (atoi s) := by
  have hrange (i : Int) : IsInt32 (toInt32 i) := by
    have hlo := Int.le_bmod (x := i) (m := 2 ^ 32) (by decide)
    have hhi := Int.bmod_lt (x := i) (m := 2 ^ 32) (by decide)
    unfold IsInt32 toInt32
    omega
  unfold atoi
  split <;> exact hrange _

theorem isDigit_of_mem_toDigits {n : Nat} {c : Char} (h : c ∈ Nat.toDigits 10 n) :
    c.isDigit = true :=
  Nat.isDigit_of_mem_toDigits (by decide) (by decide) h

theorem digitsVal_toDigits (n : Nat) : digitsVal (Nat.toDigits 10 n) = n := by
  have htake : (Nat.toDigits 10 n).takeWhile Char.isDigit = Nat.toDigits 10 n :=
    List.takeWhile_eq_self_iff.mpr fun c hc => isDigit_of_mem_toDigits hc
  rw [digitsVal, htake]
  exact Nat.ofDigitChars_toDigits (by decide) (by decide)

theorem not_isSpace_of_isDigit {c : Char} (h : c.isDigit = true) : isSpace c = false := by
  have hne : ∀ d : Char, d.isDigit = false → (c == d) = false := by
    rintro d hd
    rw [beq_eq_false_iff_ne]
    rintro rfl
    rw [h] at hd
    cases hd
  simp [isSpace, hne ' ' (by decide), hne '\t' (by decide), hne '\n' (by decide),
    hne '\r' (by decide), hne '\x0b' (by decide), hne '\x0c' (by decide)]

theorem digitsVal_of_digits {s : Str} (h : ∀ c ∈ s, c.isDigit = true) :
    digitsVal s = Nat.ofDigitChars 10 s 0 := by
  rw [digitsVal, List.takeWhile_eq_self_iff.mpr h]

/-- `atoi` reads a decimal number that fits an `int`. -/
theorem atoi_digits {s : Str} (hne : s ≠ []) (h : ∀ c ∈ s, c.isDigit = true)
    (hrange : digitsVal s < 2 ^ 31) : atoi s = digitsVal s := by
  obtain ⟨c, t, rfl⟩ := List.exists_cons_of_ne_nil hne
  have hc : c.isDigit = true := h c (List.mem_cons_self ..)
  have hdrop : (c :: t).dropWhile isSpace = c :: t := by
    rw [List.dropWhile_cons, if_neg]
    simp [not_isSpace_of_isDigit hc]
  unfold atoi
  rw [hdrop]
  split
  · next heq =>
    cases heq
    exact absurd hc (by decide)
  · next heq =>
    cases heq
    exact absurd hc (by decide)
  · exact toInt32_clampLong ⟨by omega, by omega⟩

/-- Only zeros spell zero. -/
theorem eq_zero_of_ofDigitChars {s : Str} (h : ∀ c ∈ s, c.isDigit = true) {n : Nat}
    (hzero : Nat.ofDigitChars 10 s n = 0) : n = 0 ∧ ∀ c ∈ s, c = '0' := by
  induction s generalizing n with
  | nil => exact ⟨hzero, fun _ hc => nomatch hc⟩
  | cons d s ih =>
    rw [Nat.ofDigitChars_cons] at hzero
    obtain ⟨hn, hs⟩ := ih (fun c hc => h c (List.mem_cons_of_mem _ hc)) hzero
    refine ⟨by omega, fun c hc => ?_⟩
    rcases List.mem_cons.mp hc with rfl | hc
    · have hdigit : 48 ≤ c.val ∧ c.val ≤ 57 := by
        simpa [Char.isDigit] using h c (List.mem_cons_self ..)
      have hle : '0'.toNat ≤ c.toNat := UInt32.le_iff_toNat_le.mp hdigit.1
      exact Char.toNat_inj.mp (by omega)
    · exact hs c hc

/-- A number rendered by `%d` is read back by `atoi`. -/
theorem atoi_fmtD {i : Int} (h : IsInt32 i) : atoi (fmtD i) = i := by
  obtain ⟨hlo, hhi⟩ := h
  cases i with
  | ofNat n =>
    have hval := digitsVal_toDigits n
    have hlt : digitsVal (Nat.toDigits 10 n) < 2 ^ 31 := by
      rw [hval]
      exact Int.ofNat_lt.mp hhi
    show atoi (Nat.toDigits 10 n) = _
    rw [atoi_digits Nat.toDigits_ne_nil (fun c hc => isDigit_of_mem_toDigits hc) hlt, hval]
    rfl
  | negSucc n =>
    show atoi ('-' :: Nat.toDigits 10 (n + 1)) = _
    have hdrop : ('-' :: Nat.toDigits 10 (n + 1)).dropWhile isSpace
        = '-' :: Nat.toDigits 10 (n + 1) := by
      rw [List.dropWhile_cons, if_neg (by decide)]
    unfold atoi
    rw [hdrop]
    show toInt32 (clampLong (-(digitsVal (Nat.toDigits 10 (n + 1)) : Int))) = _
    rw [digitsVal_toDigits, show -((n + 1 : Nat) : Int) = Int.negSucc n from rfl]
    exact toInt32_clampLong ⟨hlo, hhi⟩

/-- `%d` writes digits and at most a minus sign. -/
theorem mem_fmtD {i : Int} {c : Char} (h : c ∈ fmtD i) : c.isDigit = true ∨ c = '-' := by
  cases i with
  | ofNat n => exact .inl (isDigit_of_mem_toDigits h)
  | negSucc n =>
    rcases List.mem_cons.mp h with rfl | h
    · exact .inr rfl
    · exact .inl (isDigit_of_mem_toDigits h)

/-! ## Blanks at the ends -/

/-- `s` without the blanks at its two ends. -/
def trimBlanks (s : Str) : Str :=
  ((s.dropWhile (· == ' ')).reverse.dropWhile (· == ' ')).reverse

/-- The bytes that are no blanks. -/
def inked (s : Str) : Str := s.filter (· != ' ')

theorem inked_append (a b : Str) : inked (a ++ b) = inked a ++ inked b := List.filter_append ..

theorem inked_eq_nil_iff {s : Str} : inked s = [] ↔ ∀ c ∈ s, c = ' ' := by
  simp [inked]

theorem inked_dropWhile (s : Str) : inked (s.dropWhile (· == ' ')) = inked s := by
  have hblank : inked (s.takeWhile (· == ' ')) = [] :=
    inked_eq_nil_iff.mpr fun c hc => by simpa using List.mem_takeWhile_imp hc
  conv_rhs => rw [← List.takeWhile_append_dropWhile (p := (· == ' ')) (l := s)]
  rw [inked_append, hblank, List.nil_append]

/-- Trimming takes blanks only. -/
theorem inked_trimBlanks (s : Str) : inked (trimBlanks s) = inked s := by
  unfold trimBlanks
  have h := inked_dropWhile (s.dropWhile (· == ' ')).reverse
  unfold inked at h ⊢
  rw [List.filter_reverse, h, ← List.filter_reverse, List.reverse_reverse]
  exact inked_dropWhile s

theorem trimBlanks_blanks_append {a b : Str} (h : ∀ c ∈ a, c = ' ') :
    trimBlanks (a ++ b) = trimBlanks b := by
  unfold trimBlanks
  rw [List.dropWhile_append_of_pos (by simpa using h)]

theorem trimBlanks_append_blanks {a b : Str} (h : ∀ c ∈ b, c = ' ') :
    trimBlanks (a ++ b) = trimBlanks a := by
  unfold trimBlanks
  rw [List.dropWhile_append]
  split
  · next hnil =>
    have hb : b.dropWhile (· == ' ') = [] := by simpa using h
    rw [List.isEmpty_iff.mp hnil, hb]
  · rw [List.reverse_append, List.dropWhile_append_of_pos (by simpa using h)]

/-- More text shows after trimming, unless it is blank. -/
theorem trimBlanks_append_eq_iff {a b : Str} :
    trimBlanks a = trimBlanks (a ++ b) ↔ ∀ c ∈ b, c = ' ' := by
  constructor
  · intro h
    have hink := congrArg inked h
    rw [inked_trimBlanks, inked_trimBlanks, inked_append] at hink
    exact inked_eq_nil_iff.mp (List.self_eq_append_right.mp hink)
  · exact fun h => (trimBlanks_append_blanks h).symm

/-! ## Searching -/

/-- A text without `c` stands on one side of a `c`. -/
theorem infix_append_cons_iff {m a b : Str} {c : Char} (hm : m ≠ []) (hc : c ∉ m) :
    m <:+: a ++ c :: b ↔ m <:+: a ∨ m <:+: b := by
  constructor
  · rintro ⟨s, t, h⟩
    rw [List.append_assoc] at h
    rcases List.append_eq_append_iff.mp h with ⟨u, rfl, hu⟩ | ⟨u, rfl, hu⟩
    · rcases List.append_eq_append_iff.mp hu with ⟨v, rfl, -⟩ | ⟨v, rfl, hv⟩
      · exact .inl ⟨s, v, by simp⟩
      · cases v with
        | nil => exact .inl ⟨s, [], by simp⟩
        | cons x v =>
          obtain ⟨rfl, -⟩ := List.cons.inj hv
          exact absurd (by simp) hc
    · cases u with
      | nil =>
        cases m with
        | nil => exact absurd rfl hm
        | cons x m =>
          obtain ⟨rfl, -⟩ := List.cons.inj hu
          exact absurd (List.mem_cons_self ..) hc
      | cons x u =>
        obtain ⟨rfl, rfl⟩ := List.cons.inj hu
        exact .inr ⟨u, t, by simp⟩
  · rintro (⟨s, t, rfl⟩ | ⟨s, t, rfl⟩)
    · exact ⟨s, t ++ c :: b, by simp⟩
    · exact ⟨a ++ c :: s, t, by simp⟩

end CLib
