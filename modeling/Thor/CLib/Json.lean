import Thor.CLib.Str

/-!
# JSON objects

A decoder for the objects whose values are strings or `null`, with all that the grammar
allows in them: white space, escapes, and pairs of surrogates.

- `jsonString`: the body of a string and its closing quote.
- `jsonObject`: the members, in order.
- `jsonString_self_iff`: a text that stands between quotes as it is decodes to itself
  when none of its characters needs an escape, and only then.
-/

namespace CLib

/-! ## Strings -/

def hexVal (c : Char) : Option Nat :=
  if '0' ≤ c ∧ c ≤ '9' then some (c.toNat - 48)
  else if 'a' ≤ c ∧ c ≤ 'f' then some (c.toNat - 87)
  else if 'A' ≤ c ∧ c ≤ 'F' then some (c.toNat - 55)
  else none

/-- Four hexadecimal digits. -/
def hex4 : Str → Option (Nat × Str)
  | a :: b :: c :: d :: s => do
    let a ← hexVal a
    let b ← hexVal b
    let c ← hexVal c
    let d ← hexVal d
    some (((a * 16 + b) * 16 + c) * 16 + d, s)
  | _ => none

/-- The escapes of one letter. -/
def unescape (c : Char) : Option Char :=
  [('"', '"'), ('\\', '\\'), ('/', '/'), ('b', '\x08'), ('f', '\x0c'), ('n', '\n'), ('r', '\r'),
    ('t', '\t')].lookup c

/-- The other half of a pair of surrogates. -/
def lowSurrogate (high : Nat) (s : Str) : Option (Char × Str) :=
  (hex4 s).bind fun low =>
    if 0xDC00 ≤ low.1 ∧ low.1 < 0xE000 then
      some (Char.ofNat (0x10000 + (high - 0xD800) * 0x400 + (low.1 - 0xDC00)), low.2)
    else none

/-- `\u` and what follows. -/
def unicodeEscape (s : Str) : Option (Char × Str) :=
  (hex4 s).bind fun p =>
    if 0xD800 ≤ p.1 ∧ p.1 < 0xDC00 then
      if lit "\\u" <+: p.2 then lowSurrogate p.1 (p.2.drop 2) else none
    else if 0xDC00 ≤ p.1 ∧ p.1 < 0xE000 then none
    else some (Char.ofNat p.1, p.2)

def isControl (c : Char) : Bool := decide (c < ' ')

/-- A character of a string, or an escape. -/
def jsonChar : Str → Option (Char × Str)
  | [] => none
  | c :: s =>
    if c = '\\' then
      match s with
      | [] => none
      | d :: s => if d = 'u' then unicodeEscape s else (unescape d).map fun e => (e, s)
    else if isControl c then none
    else some (c, s)

/-- The body of a string up to its closing quote, and what stands behind it. -/
def jsonBody : Nat → Str → Option (Str × Str)
  | 0, _ => none
  | _ + 1, [] => none
  | fuel + 1, c :: s =>
    if c = '"' then some ([], s)
    else
      (jsonChar (c :: s)).bind fun d => (jsonBody fuel d.2).map fun o => (d.1 :: o.1, o.2)

/-- A string, its opening quote having been read. -/
def jsonString (s : Str) : Option (Str × Str) := jsonBody (s.length + 1) s

/-! ## Objects -/

def isJsonSpace (c : Char) : Bool := c == ' ' || c == '\t' || c == '\n' || c == '\r'

def skipWs (s : Str) : Str := s.dropWhile isJsonSpace

/-- A character of the grammar, with white space in front of it. -/
def expect (c : Char) (s : Str) : Option Str :=
  match skipWs s with
  | d :: r => if d = c then some r else none
  | [] => none

/-- A string, or `null`. -/
def jsonValue (s : Str) : Option (Option Str × Str) :=
  match expect '"' s with
  | some r => (jsonString r).map fun p => (some p.1, p.2)
  | none => if lit "null" <+: skipWs s then some (none, (skipWs s).drop 4) else none

def jsonMember (s : Str) : Option ((Str × Option Str) × Str) :=
  (expect '"' s).bind fun s => (jsonString s).bind fun name =>
    (expect ':' name.2).bind fun s => (jsonValue s).map fun value => ((name.1, value.1), value.2)

/-- The members up to the closing brace. -/
def jsonMembers : Nat → Str → Option (List (Str × Option Str) × Str)
  | 0, _ => none
  | fuel + 1, s =>
    (jsonMember s).bind fun m =>
      match expect ',' m.2 with
      | some s => (jsonMembers fuel s).map fun ms => (m.1 :: ms.1, ms.2)
      | none => (expect '}' m.2).map fun s => ([m.1], s)

/-- A text that is an object. -/
def jsonObject (s : Str) : Option (List (Str × Option Str)) :=
  (expect '{' s).bind fun s =>
    (match expect '}' s with
      | some s => some ([], s)
      | none => jsonMembers s.length s).bind fun ms => if skipWs ms.2 = [] then some ms.1 else none

/-! ## What is read of a text -/

/-- A character that stands in a string as it is. -/
def JsonPlain (c : Char) : Prop := c ≠ '"' ∧ c ≠ '\\' ∧ isControl c = false

instance (c : Char) : Decidable (JsonPlain c) := inferInstanceAs (Decidable (_ ∧ _))

/-- Some bytes of the text are read for a character: itself, or at least two, and a quote
only for a quote. -/
def ReadFor (d : Char) (s r : Str) : Prop :=
  ∃ raw, s = raw ++ r ∧ raw.count '"' ≤ [d].count '"' ∧
    (raw = [d] ∧ JsonPlain d ∨ 2 ≤ raw.length)

theorem hexVal_quote : hexVal '"' = none := by decide

theorem hex4_read {s r : Str} {n : Nat} (h : hex4 s = some (n, r)) :
    ∃ raw, s = raw ++ r ∧ raw.count '"' = 0 := by
  unfold hex4 at h
  split at h
  · next a b c d s =>
    obtain ⟨a', ha, h⟩ := Option.bind_eq_some_iff.mp h
    obtain ⟨b', hb, h⟩ := Option.bind_eq_some_iff.mp h
    obtain ⟨c', hc, h⟩ := Option.bind_eq_some_iff.mp h
    obtain ⟨d', hd, h⟩ := Option.bind_eq_some_iff.mp h
    have hdigit {x : Char} {v : Nat} (hx : hexVal x = some v) : x ≠ '"' := by
      rintro rfl
      rw [hexVal_quote] at hx
      cases hx
    obtain ⟨-, rfl⟩ := Prod.mk.inj (Option.some.inj h)
    refine ⟨[a, b, c, d], rfl, ?_⟩
    simp [hdigit ha, hdigit hb, hdigit hc, hdigit hd]
  · cases h

theorem lowSurrogate_read {high : Nat} {s r : Str} {d : Char}
    (h : lowSurrogate high s = some (d, r)) : ∃ raw, s = raw ++ r ∧ raw.count '"' = 0 := by
  obtain ⟨⟨low, s'⟩, hlow, h⟩ := Option.bind_eq_some_iff.mp h
  split at h
  · obtain ⟨-, rfl⟩ := Prod.mk.inj (Option.some.inj h)
    exact hex4_read hlow
  · cases h

theorem unicodeEscape_read {s r : Str} {d : Char} (h : unicodeEscape s = some (d, r)) :
    ∃ raw, s = raw ++ r ∧ raw.count '"' = 0 := by
  rcases Option.bind_eq_some_iff.mp h with ⟨⟨n, s'⟩, hn, hchar⟩
  obtain ⟨raw, rfl, hraw⟩ := hex4_read hn
  split at hchar
  · split at hchar
    · next hlow =>
      obtain ⟨raw', hs', hraw'⟩ := lowSurrogate_read hchar
      obtain ⟨s'', rfl⟩ := hlow
      refine ⟨raw ++ (lit "\\u" ++ raw'), ?_, ?_⟩
      · rw [List.append_assoc, List.append_assoc, ← hs']
        rfl
      · rw [List.count_append, List.count_append, hraw, hraw']
        rfl
    · cases hchar
  · split at hchar
    · cases hchar
    · obtain ⟨-, rfl⟩ := Prod.mk.inj (Option.some.inj hchar)
      exact ⟨raw, rfl, hraw⟩

theorem jsonChar_read {c d : Char} {s r : Str} (hc : c ≠ '"')
    (h : jsonChar (c :: s) = some (d, r)) : ReadFor d (c :: s) r := by
  unfold jsonChar at h
  split at h
  · cases h
  · next c' s' heq =>
    obtain ⟨rfl, rfl⟩ := List.cons.inj heq
    split at h
    · next hback =>
      subst hback
      cases s with
      | nil => cases h
      | cons e s =>
        dsimp only at h
        split at h
        · next hu =>
          subst hu
          obtain ⟨raw, rfl, hraw⟩ := unicodeEscape_read h
          refine ⟨'\\' :: 'u' :: raw, rfl, ?_, .inr (Nat.le_add_left 2 raw.length)⟩
          rw [List.count_cons_of_ne (by decide), List.count_cons_of_ne (by decide), hraw]
          exact Nat.zero_le _
        · obtain ⟨f, hf, heq⟩ := Option.map_eq_some_iff.mp h
          obtain ⟨rfl, rfl⟩ := Prod.mk.inj heq
          refine ⟨['\\', e], rfl, ?_, .inr (Nat.le_refl 2)⟩
          by_cases he : e = '"'
          · subst he
            obtain rfl : '"' = f := Option.some.inj hf
            decide
          · simp [he]
    · next hback =>
      split at h
      · cases h
      · next hcontrol =>
        obtain ⟨rfl, rfl⟩ := Prod.mk.inj (Option.some.inj h)
        exact ⟨[c], rfl, Nat.le_refl _, .inl ⟨rfl, hc, hback, Bool.eq_false_iff.mpr hcontrol⟩⟩

/-- What is read up to the closing quote holds no more quotes than the string, and is
longer, unless it is the string. -/
theorem jsonBody_read {fuel : Nat} {s o r : Str} (h : jsonBody fuel s = some (o, r)) :
    ∃ b, s = b ++ '"' :: r ∧ b.count '"' ≤ o.count '"' ∧
      (b = o ∧ (∀ c ∈ o, JsonPlain c) ∨ o.length < b.length) := by
  induction fuel generalizing s o with
  | zero => cases h
  | succ fuel ih =>
    cases s with
    | nil => cases h
    | cons c s =>
      -- the closing quote, or a character and what is read behind it
      rw [jsonBody] at h
      split at h
      · next hquote =>
        obtain ⟨rfl, rfl⟩ := Prod.mk.inj (Option.some.inj h)
        exact ⟨[], by rw [hquote]; rfl, Nat.le_refl _, .inl ⟨rfl, fun c hc => absurd hc (by simp)⟩⟩
      · next hquote =>
        obtain ⟨⟨d, s'⟩, hchar, h⟩ := Option.bind_eq_some_iff.mp h
        obtain ⟨⟨o', r'⟩, hbody, h⟩ := Option.map_eq_some_iff.mp h
        obtain ⟨rfl, rfl⟩ := Prod.mk.inj h
        obtain ⟨raw, hraw, hcount, hshape⟩ := jsonChar_read hquote hchar
        obtain ⟨b, rfl, hcount', hshape'⟩ := ih hbody
        refine ⟨raw ++ b, by rw [hraw, List.append_assoc], ?_, ?_⟩
        · rw [List.count_append, show d :: o' = [d] ++ o' from rfl, List.count_append]
          exact Nat.add_le_add hcount hcount'
        -- one escape anywhere makes what is read longer than the string
        · rcases hshape with ⟨rfl, hplain⟩ | hlong
          · rcases hshape' with ⟨rfl, hall⟩ | hlt
            · exact .inl ⟨rfl, List.forall_mem_cons.mpr ⟨hplain, hall⟩⟩
            · exact .inr (Nat.succ_lt_succ hlt)
          · refine .inr ?_
            have hle : o'.length ≤ b.length := by
              rcases hshape' with ⟨rfl, -⟩ | hlt
              · exact Nat.le_refl _
              · exact Nat.le_of_lt hlt
            show o'.length + 1 < (raw ++ b).length
            rw [List.length_append]
            omega

/-- Plain characters are read one by one. -/
theorem jsonBody_plain {o : Str} (ho : ∀ c ∈ o, JsonPlain c) {fuel : Nat} (hfuel : o.length < fuel)
    (r : Str) : jsonBody fuel (o ++ '"' :: r) = some (o, r) := by
  induction o generalizing fuel with
  | nil =>
    cases fuel with
    | zero => cases hfuel
    | succ fuel => rfl
  | cons c o ih =>
    cases fuel with
    | zero => cases hfuel
    | succ fuel =>
      obtain ⟨hquote, hback, hcontrol⟩ := ho c (List.mem_cons_self ..)
      have hrest := ih (fun x hx => ho x (List.mem_cons_of_mem c hx)) (Nat.lt_of_succ_lt_succ hfuel)
      have hchar : jsonChar (c :: (o ++ '"' :: r)) = some (c, o ++ '"' :: r) := by
        unfold jsonChar
        dsimp only
        rw [if_neg hback, if_neg (Bool.eq_false_iff.mp hcontrol)]
      rw [List.cons_append, jsonBody, if_neg hquote, hchar, Option.bind_some, hrest]
      rfl

/-- **A text between quotes** decodes to itself exactly when it needs no escape. -/
theorem jsonString_self_iff {v r r' : Str} :
    jsonString (v ++ '"' :: r) = some (v, r') ↔ (∀ c ∈ v, JsonPlain c) ∧ r' = r := by
  constructor
  · intro h
    obtain ⟨b, happ, hcount, hshape⟩ := jsonBody_read h
    rcases hshape with ⟨rfl, hall⟩ | hlong
    · exact ⟨hall, (List.cons.inj (List.append_cancel_left happ)).2.symm⟩
    · -- what is read reaches over the quote that was meant to close the string
      obtain ⟨t, rfl⟩ : ∃ t, b = v ++ '"' :: t := by
        rcases List.append_eq_append_iff.mp happ with ⟨a, rfl, ha⟩ | ⟨a, rfl, ha⟩
        · cases a with
          | nil => rw [List.append_nil] at hlong; exact absurd hlong (Nat.lt_irrefl _)
          | cons x a => exact ⟨a, by rw [(List.cons.inj ha).1]⟩
        · rw [List.length_append] at hlong
          omega
      rw [List.count_append, List.count_cons_self] at hcount
      omega
  · rintro ⟨hall, rfl⟩
    refine jsonBody_plain hall ?_ _
    rw [List.length_append]
    omega

end CLib
