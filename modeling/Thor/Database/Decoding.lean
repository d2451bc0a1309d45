import Thor.CLib.Json
import Thor.Database.Listings

/-!
# The rows of a listing as JSON (database/items_info_db.c, usr_info_db.c, items_images.c)

The four row callbacks write a row as an object of JSON, without an escape, and `NULL` as
the text `NULL`.

- `memberText`: what they write for one column.
- `jsonMember_iff`: when that decodes to the column.
- `decodes_iff`: when the whole text decodes to the row.
-/

namespace Thor

open CLib Sql

/-- What is written for a column. -/
def memberText (p : Str × Option Str) : Str :=
  '"' :: (p.1 ++ '"' :: ' ' :: ':' :: ' ' :: '"' :: (p.2.getD (lit "NULL") ++ ['"']))

/-- What is written behind a column: the others, each behind a comma, and the brace. -/
def membersTail : RowText → Str
  | [] => ['\x7d']
  | p :: row => ',' :: (memberText p ++ membersTail row)

theorem rowText_cons (p : Str × Option Str) (row : RowText) :
    rowText (p :: row) = '\x7b' :: ' ' :: (memberText p ++ membersTail row) := by
  have hmember (p : Str × Option Str) :
      sprintf (lit "\"%s\" : \"%s\",") [p.1, p.2.getD (lit "NULL")] = memberText p ++ [','] := by
    simp [lit, sprintf, memberText]
  have htail (row : RowText) : ∀ p : Str × Option Str,
      ((p :: row).map fun p => memberText p ++ [',']).flatten.dropLast ++ ['\x7d']
        = memberText p ++ membersTail row := by
    induction row with
    | nil =>
      intro p
      rw [List.map_singleton, List.flatten_singleton, List.dropLast_concat]
      rfl
    | cons q row ih =>
      intro p
      have hne : ((q :: row).map fun p => memberText p ++ [',']).flatten ≠ [] := by
        rw [List.map_cons, List.flatten_cons, List.append_assoc]
        exact List.cons_ne_nil _ _
      rw [List.map_cons, List.flatten_cons, List.dropLast_append_of_ne_nil hne,
        List.append_assoc, ih q, membersTail, List.append_assoc]
      rfl
  have hne : ((p :: row).map fun p => memberText p ++ [',']).flatten ≠ [] := by
    rw [List.map_cons, List.flatten_cons, List.append_assoc]
    exact List.cons_ne_nil _ _
  unfold rowText
  simp only [hmember]
  rw [List.dropLast_append_of_ne_nil hne, List.append_assoc]
  exact congrArg (lit "\x7b " ++ ·) (htail row p)

/-! ## One column -/

theorem expect_cons {c d : Char} (hd : isJsonSpace d = false) (s : Str) :
    expect c (d :: s) = if d = c then some s else none := by
  have hskip : skipWs (d :: s) = d :: s := List.dropWhile_cons_of_neg (Bool.eq_false_iff.mp hd)
  rw [expect, hskip]

theorem expect_self {c : Char} (hc : isJsonSpace c = false) (s : Str) :
    expect c (c :: s) = some s := by
  rw [expect_cons hc, if_pos rfl]

/-- A column that needs no escape. -/
def ColumnPlain (p : Str × Option Str) : Prop :=
  (∀ c ∈ p.1, JsonPlain c) ∧ ∃ v, p.2 = some v ∧ ∀ c ∈ v, JsonPlain c

theorem jsonMember_iff {p : Str × Option Str} {rest rest' : Str} :
    jsonMember (memberText p ++ rest) = some (p, rest') ↔ ColumnPlain p ∧ rest' = rest := by
  obtain ⟨name, value⟩ := p
  have htext : memberText (name, value) ++ rest = '"' :: (name ++ '"' :: ' ' :: ':' :: ' ' :: '"' ::
      (value.getD (lit "NULL") ++ '"' :: rest)) := by simp [memberText]
  have hcolon (s : Str) : expect ':' (' ' :: ':' :: s) = some s := rfl
  have hvalue (s : Str) : jsonValue (' ' :: '"' :: s)
      = (jsonString s).map fun p => (some p.1, p.2) := rfl
  rw [htext, jsonMember, expect_self (by decide), Option.bind_some]
  constructor
  · intro h
    obtain ⟨⟨name', s⟩, hname, h⟩ := Option.bind_eq_some_iff.mp h
    obtain ⟨s', hs', h⟩ := Option.bind_eq_some_iff.mp h
    obtain ⟨⟨value', r⟩, hval, heq⟩ := Option.map_eq_some_iff.mp h
    obtain ⟨hcol, rfl⟩ := Prod.mk.inj heq
    obtain ⟨rfl, rfl⟩ := Prod.mk.inj hcol
    obtain ⟨hplain, rfl⟩ := jsonString_self_iff.mp hname
    rw [hcolon] at hs'
    obtain rfl := Option.some.inj hs'
    rw [hvalue] at hval
    obtain ⟨⟨v, r'⟩, hv, heq⟩ := Option.map_eq_some_iff.mp hval
    obtain ⟨rfl, rfl⟩ := Prod.mk.inj heq
    obtain ⟨hplain', rfl⟩ := jsonString_self_iff.mp hv
    exact ⟨⟨hplain, v, rfl, hplain'⟩, rfl⟩
  · rintro ⟨⟨hname, v, rfl, hv⟩, rfl⟩
    rw [jsonString_self_iff.mpr ⟨hname, rfl⟩, Option.bind_some]
    dsimp only
    rw [hcolon, Option.bind_some, hvalue, Option.getD_some, jsonString_self_iff.mpr ⟨hv, rfl⟩]
    rfl

/-! ## The row -/

theorem jsonMembers_last {s : Str} {p : Str × Option Str} (h : jsonMember s = some (p, ['\x7d']))
    (fuel : Nat) : jsonMembers (fuel + 1) s = some ([p], []) := by
  rw [jsonMembers, h]
  rfl

theorem jsonMembers_more {s s' : Str} {p : Str × Option Str}
    (h : jsonMember s = some (p, ',' :: s')) (fuel : Nat) :
    jsonMembers (fuel + 1) s = (jsonMembers fuel s').map fun ms => (p :: ms.1, ms.2) := by
  rw [jsonMembers, h]
  rfl

/-- The first member is read first. -/
theorem jsonMember_of_members {s rest : Str} {p : Str × Option Str} {row : RowText} {fuel : Nat}
    (h : jsonMembers (fuel + 1) s = some (p :: row, rest)) : ∃ s', jsonMember s = some (p, s') := by
  obtain ⟨⟨m, s'⟩, hm, h⟩ := Option.bind_eq_some_iff.mp h
  refine ⟨s', ?_⟩
  dsimp only at h
  cases hcomma : expect ',' s' with
  | some s'' =>
    rw [hcomma] at h
    obtain ⟨ms, -, heq⟩ := Option.map_eq_some_iff.mp h
    rw [hm, (List.cons.inj (Prod.mk.inj heq).1).1]
  | none =>
    rw [hcomma] at h
    obtain ⟨s'', -, heq⟩ := Option.map_eq_some_iff.mp h
    rw [hm, (List.cons.inj (Prod.mk.inj heq).1).1]

/-- The members decode to the columns when each of them does, one after the other. -/
theorem jsonMembers_iff {row : RowText} {p : Str × Option Str} {fuel : Nat}
    (hfuel : row.length < fuel) {rest : Str} :
    jsonMembers fuel (memberText p ++ membersTail row) = some (p :: row, rest) ↔
      (∀ q ∈ p :: row, ColumnPlain q) ∧ rest = [] := by
  induction row generalizing p fuel rest with
  | nil =>
    cases fuel with
    | zero => cases hfuel
    | succ fuel =>
      constructor
      · intro h
        obtain ⟨s', hs'⟩ := jsonMember_of_members h
        obtain ⟨hplain, rfl⟩ := jsonMember_iff.mp hs'
        rw [jsonMembers_last hs'] at h
        exact ⟨List.forall_mem_singleton.mpr hplain, (Prod.mk.inj (Option.some.inj h)).2.symm⟩
      · rintro ⟨hplain, rfl⟩
        exact jsonMembers_last (jsonMember_iff.mpr ⟨List.forall_mem_singleton.mp hplain, rfl⟩) fuel
  | cons q row ih =>
    cases fuel with
    | zero => cases hfuel
    | succ fuel =>
      have hfuel' := Nat.lt_of_succ_lt_succ hfuel
      constructor
      · intro h
        obtain ⟨s', hs'⟩ := jsonMember_of_members h
        obtain ⟨hplain, rfl⟩ := jsonMember_iff.mp hs'
        rw [jsonMembers_more hs'] at h
        obtain ⟨⟨ms, r⟩, hms, heq⟩ := Option.map_eq_some_iff.mp h
        obtain ⟨hcols, rfl⟩ := Prod.mk.inj heq
        obtain rfl := (List.cons.inj hcols).2
        obtain ⟨hall, hnil⟩ := (ih hfuel').mp hms
        exact ⟨List.forall_mem_cons.mpr ⟨hplain, hall⟩, hnil⟩
      · rintro ⟨hplain, rfl⟩
        obtain ⟨hp, hall⟩ := List.forall_mem_cons.mp hplain
        have hmember : jsonMember (memberText p ++ membersTail (q :: row))
            = some (p, ',' :: (memberText q ++ membersTail row)) := jsonMember_iff.mpr ⟨hp, rfl⟩
        rw [jsonMembers_more hmember, (ih hfuel').mpr ⟨hall, rfl⟩]
        rfl

theorem length_membersTail (row : RowText) : row.length < (membersTail row).length := by
  induction row with
  | nil => exact Nat.one_pos
  | cons p row ih =>
    rw [membersTail, List.length_cons, List.length_cons, List.length_append]
    omega

/-- The object decodes to the row exactly when every column is plain. -/
theorem jsonObject_iff (row : RowText) :
    jsonObject (rowText row) = some row ↔ ∀ p ∈ row, ColumnPlain p := by
  cases row with
  | nil => exact iff_of_true rfl fun p hp => absurd hp List.not_mem_nil
  | cons p row =>
    have hfuel : row.length < (' ' :: (memberText p ++ membersTail row)).length := by
      have := length_membersTail row
      rw [List.length_cons, List.length_append]
      omega
    have hblank (n : Nat) (s : Str) : jsonMembers n (' ' :: s) = jsonMembers n s := by
      cases n <;> rfl
    have hobject : jsonObject (rowText (p :: row))
        = (jsonMembers (' ' :: (memberText p ++ membersTail row)).length
          (memberText p ++ membersTail row)).bind fun ms =>
            if skipWs ms.2 = [] then some ms.1 else none := by
      -- the renderer puts a blank behind the brace, which the reader skips
      rw [rowText_cons, jsonObject, expect_self (by decide), Option.bind_some, ← hblank]
      rfl
    rw [hobject]
    constructor
    · intro h
      obtain ⟨⟨ms, rest⟩, hms, h⟩ := Option.bind_eq_some_iff.mp h
      split at h
      · obtain rfl := Option.some.inj h
        exact ((jsonMembers_iff hfuel).mp hms).1
      · cases h
    · intro hall
      rw [(jsonMembers_iff hfuel).mpr ⟨hall, rfl⟩]
      rfl

/-! ## The callbacks -/

/-- What the callback adds to the stream is an object and a comma, and the object decodes
to the row. -/
def Decodes (cap size : Nat) (st : Stream) (row : RowText) : Prop :=
  listRow cap size st row = .ok (st.puts size (rowText row ++ comma)) ∧
    jsonObject (rowText row) = some row

/-- **Rows decode** to themselves if and only if no name and no value has a quote, a
backslash or a control character, and no value is `NULL`. -/
theorem decodes_iff {cap : Nat} (size : Nat) (st : Stream) {row : RowText}
    (hfit : (renderRow row).length < cap) :
    Decodes cap size st row ↔ ∀ p ∈ row, ColumnPlain p := by
  have hemit : listRow cap size st row = .ok (st.puts size (rowText row ++ comma)) := by
    rw [listRow, if_pos (fits_iff.mpr hfit), renderRow_eq]
  exact (and_iff_right hemit).trans (jsonObject_iff row)

/-- A user as the list shows it. -/
theorem decodes_user :
    Decodes 10000 bufsiz ⟨[], 0⟩ [(lit "Id", some (lit "1")), (lit "Name", some (lit "bob"))] :=
  (decodes_iff bufsiz ⟨[], 0⟩ (by decide)).mpr fun p hp => by
    rcases List.mem_cons.mp hp with rfl | hp
    · exact ⟨by decide, _, rfl, by decide⟩
    · obtain rfl := List.mem_singleton.mp hp
      exact ⟨by decide, _, rfl, by decide⟩

/-- An item whose name has a quote in it makes the list unreadable. -/
theorem not_decodes :
    ¬ ∀ (cap size : Nat) (st : Stream) (row : RowText), row ≠ [] →
      (renderRow row).length < cap → Decodes cap size st row := by
  intro h
  have hdec := (h (5 * 1000) bufsiz ⟨[], 0⟩ [(lit "Name", some (lit "19\" rack"))] (by decide)
    (by decide)).2
  have hnone : jsonObject (rowText [(lit "Name", some (lit "19\" rack"))]) = none := by
    decide +kernel
  rw [hnone] at hdec
  cases hdec

end Thor
