import Thor.Security.Restart

/-!
# The two ways to log in (security/authorize.c)

`get_user_mode` asks the table `valid_users` while the database is not open, and the
database when it is, which `register_users` has filled from that table.

- `specMode`: what either is meant to return.
- `builtinMode_ne_iff`: what the table lets in, with lengths that do not count the
  terminator.
- `agree_iff`: for which pairs both return what they are meant to.
-/

namespace Thor

open CLib Sql Prog

/-- The role of the entry with this name and this password, `-1` when there is none. -/
def specMode (id pas : Str) : Int :=
  ((validUsers.find? fun u => u.name == id && u.pass == pas).map ValidUser.mode).getD (-1)

/-- The pair is the name and the password of an entry. -/
def IsEntry (id pas : Str) : Prop := ∃ u ∈ validUsers, id = u.name ∧ pas = u.pass

/-- The pair is that of an entry whose name and password are equally long, with another
byte behind each. -/
def OneMore (id pas : Str) : Prop :=
  ∃ u ∈ validUsers, u.pass.length = u.name.length ∧
    ∃ c d, id = u.name ++ [c] ∧ pas = u.pass ++ [d]

theorem specMode_ne_iff {id pas : Str} : specMode id pas ≠ -1 ↔ IsEntry id pas := by
  have hmodes : ∀ u ∈ validUsers, u.mode ≠ -1 := by decide
  unfold specMode
  cases hfind : validUsers.find? fun u => u.name == id && u.pass == pas with
  | none =>
    refine iff_of_false (fun h => h rfl) ?_
    rintro ⟨u, hu, rfl, rfl⟩
    exact List.find?_eq_none.mp hfind u hu (by simp)
  | some u =>
    have hu := List.mem_of_find?_eq_some hfind
    obtain ⟨hname, hpass⟩ := (Bool.and_eq_true _ _).mp (List.find?_some hfind :)
    exact iff_of_true (hmodes u hu) ⟨u, hu, (eq_of_beq hname).symm, (eq_of_beq hpass).symm⟩

/-! ## The table -/

/-- A text that has `n` bytes of another, and one more. -/
theorem eq_concat_of_take {s t : Str} (hlen : s.length = t.length + 1)
    (htake : s.take t.length = t) : ∃ c, s = t ++ [c] := by
  obtain ⟨c, hc⟩ : ∃ c, s.drop t.length = [c] := by
    refine List.length_eq_one_iff.mp ?_
    rw [List.length_drop, hlen]
    omega
  exact ⟨c, by rw [← hc, ← htake, List.length_take_of_le (by omega), List.take_append_drop]⟩

/-- The lengths that `sizeof` gives, and how long the passwords are. -/
theorem validUsers_lengths : ∀ u ∈ validUsers,
    u.plen = u.name.length + 1 ∧ u.pass.length ≤ u.name.length ∧ u.mode ≠ -1 := by
  decide

/-- What the comparisons with an entry let through. -/
theorem matches_iff {u : ValidUser} (hu : u ∈ validUsers) (id pas : Str) :
    (id.length == u.plen && pas.length == u.plen && memcmpEq id u.name (id.length - 1) &&
      memcmpEq pas u.pass (id.length - 1)) = true ↔
      u.pass.length = u.name.length ∧ ∃ c d, id = u.name ++ [c] ∧ pas = u.pass ++ [d] := by
  obtain ⟨hplen, hle, -⟩ := validUsers_lengths u hu
  simp only [Bool.and_eq_true, beq_iff_eq, memcmpEq, hplen]
  constructor
  · rintro ⟨⟨⟨hid, hpas⟩, hname⟩, hpass⟩
    -- both comparisons stop one byte before the end of the name that is given
    rw [hid, Nat.add_sub_cancel] at hname hpass
    rw [List.take_length] at hname
    rw [List.take_of_length_le hle] at hpass
    have hlen : u.pass.length = u.name.length := by
      rw [← hpass, List.length_take, hpas]
      omega
    obtain ⟨c, hc⟩ := eq_concat_of_take hid hname
    obtain ⟨d, hd⟩ := eq_concat_of_take (hpas.trans (by rw [hlen])) (by rwa [hlen])
    exact ⟨hlen, c, d, hc, hd⟩
  · rintro ⟨hlen, c, d, rfl, rfl⟩
    refine ⟨⟨⟨by simp, by simp [hlen]⟩, by simp⟩, ?_⟩
    rw [List.length_append, List.length_singleton, Nat.add_sub_cancel, ← hlen]
    simp

/-- **The table** lets in who gives one byte too many on both sides, and nobody else. -/
theorem builtinMode_ne_iff {id pas : Str} :
    builtinMode id pas id.length pas.length ≠ -1 ↔ OneMore id pas := by
  unfold builtinMode
  split
  · next u hfind =>
    have hu := List.mem_of_find?_eq_some hfind
    exact iff_of_true (validUsers_lengths u hu).2.2
      ⟨u, hu, (matches_iff hu id pas).mp (List.find?_some hfind :)⟩
  · next hfind =>
    refine iff_of_false (fun h => h rfl) ?_
    rintro ⟨u, hu, hmatch⟩
    exact List.find?_eq_none.mp hfind u hu ((matches_iff hu id pas).mpr hmatch)

/-- No entry is another one with a byte more. -/
theorem not_isEntry_of_oneMore {id pas : Str} (h : OneMore id pas) : ¬ IsEntry id pas := by
  have hnames : ∀ u ∈ validUsers, ∀ u' ∈ validUsers, u'.name.dropLast ≠ u.name := by decide
  obtain ⟨u, hu, -, c, d, rfl, rfl⟩ := h
  rintro ⟨u', hu', hname, -⟩
  refine hnames u hu u' hu' ?_
  rw [← hname, List.dropLast_concat]

/-! ## The database -/

variable (y : Sys)

/-- The rows that `register_users` puts into an empty database. -/
theorem mem_registered (hfault : ∀ t, y.fault t = none) (hdigest : ∀ s, (y.hash s).length ≤ 32)
    {r : Row} (hr : r ∈ ((registered y).srv.db userTable).rows) :
    ∃ u ∈ validUsers, IsAccountOf y r u := by
  have hdb : (registered y).srv.db = insertAll y validUsers .empty :=
    registerUsers_db hfault hdigest rfl
  obtain ⟨added, hrows, hadded, -, -⟩ := @insertAll_spec y validUsers (by decide) .empty
  rw [hdb, hrows] at hr
  obtain ⟨u, hu, haccount⟩ := exists_of_forall₂ hadded hr
  exact ⟨u, (List.mem_filter.mp hu).1, haccount⟩

/-- `get_user_mode` with the database open on the table of `register_users`. -/
def openMode (id pas : Str) : Except Crash Int :=
  ((getUserMode y true id pas id.length pas.length).run
    { registered y with sess := initDataRoot }).val

/-- Both ways return the role of the entry, or `-1`. -/
def Agree (id pas : Str) : Prop :=
  builtinMode id pas id.length pas.length = specMode id pas ∧ openMode y id pas = .ok (specMode id pas)

variable {y}

/-- A pair that is no entry is let in by nobody, if there is room for the query. -/
theorem openMode_of_not_entry (hfault : ∀ t, y.fault t = none)
    (hdigest : ∀ s, (y.hash s).length ≤ 32) {id pas : Str} (hq : QuoteFree id)
    (hinj : ∀ u ∈ validUsers, y.hash pas = y.hash u.pass → pas = u.pass)
    (hfits : (getUsrRoleSql id (y.hash pas)).length < 256) (hnot : ¬ IsEntry id pas) :
    openMode y id pas = .ok (-1) := by
  have hrun : openMode y id pas = _ :=
    getUsrRole_run y hq { registered y with sess := initDataRoot }
  rw [hrun, if_neg (show ¬ initDataRoot.ops .hash = false by decide),
    if_neg (Nat.not_le.mpr hfits), if_neg (by rw [hfault]; decide)]
  refine congrArg Except.ok (Decidable.not_not.mp fun hne => hnot ?_)
  obtain ⟨r, hr, -⟩ := exists_of_roleOf_ne hne
  obtain ⟨hr, hname, hpass⟩ := (mem_credentialRows y).mp hr
  obtain ⟨u, hu, key, rfl⟩ := mem_registered y hfault hdigest hr
  rw [newUser_name] at hname
  rw [newUser_psswd] at hpass
  exact ⟨u, hu, (Value.text.inj hname).symm, hinj u hu (Value.text.inj hpass).symm⟩

/-- **Both ways to log in** agree if and only if there is room for the name in the query, and
the pair is neither an entry nor one with a byte more on each side. -/
theorem agree_iff (hfault : ∀ t, y.fault t = none) (hdigest : ∀ s, (y.hash s).length = 32)
    {id pas : Str} (hq : QuoteFree id)
    (hinj : ∀ u ∈ validUsers, y.hash pas = y.hash u.pass → pas = u.pass) :
    Agree y id pas ↔ id.length ≤ 145 ∧ ¬ IsEntry id pas ∧ ¬ OneMore id pas := by
  have hroom : (getUsrRoleSql id (y.hash pas)).length < 256 ↔ id.length ≤ 145 :=
    ((Built.getUsrRole id pas).fits_iff hdigest).trans (Nat.add_le_add_iff_right (n := 32))
  constructor
  · rintro ⟨htable, hopen⟩
    have hspec : specMode id pas = -1 := by
      by_contra hne
      -- the table returns the role of an entry for no entry
      have hone : OneMore id pas := builtinMode_ne_iff.mp (htable ▸ hne)
      exact not_isEntry_of_oneMore hone (specMode_ne_iff.mp hne)
    refine ⟨hroom.mp ?_, fun hentry => specMode_ne_iff.mpr hentry hspec,
      fun hone => builtinMode_ne_iff.mpr hone (htable.trans hspec)⟩
    by_contra hlong
    have hrun : openMode y id pas = _ :=
      getUsrRole_run y hq { registered y with sess := initDataRoot }
    rw [hrun, if_neg (show ¬ initDataRoot.ops .hash = false by decide),
      if_pos (Nat.not_lt.mp hlong)] at hopen
    cases hopen
  · rintro ⟨hshort, hentry, hone⟩
    have hspec : specMode id pas = -1 := Decidable.not_not.mp fun h => hentry (specMode_ne_iff.mp h)
    have htable := Decidable.not_not.mp fun h => hone (builtinMode_ne_iff.mp h)
    have hopen := openMode_of_not_entry hfault (fun s => (hdigest s).le) hq hinj
      (hroom.mpr hshort) hentry
    exact ⟨htable.trans hspec.symm, hopen.trans (by rw [hspec])⟩

/-! ## With the digests of the passwords -/

/-- MD5 of the passwords of the entries, and of `guest`. -/
def passwordDigests : List (Str × Str) :=
  [(lit "admin", lit "21232f297a57a5a743894a0e4a801fc3"),
   (lit "user", lit "ee11cbb19052e40b07aac0ca060c23ee"),
   (lit "audit", lit "a5a63d9b90e6bfe9261e70b66afec721"),
   (lit "admin123", lit "0192023a7bbd73250516f069df18b500"),
   (lit "merchant123", lit "a52f2c0dbf38ade4f715e02c7124046e"),
   (lit "user123", lit "6ad14ba9986e3615423dfca256d04e3f"),
   (lit "guest", lit "084e0343a0486ff05530df6c705c8bb4")]

theorem passwordDigests_spec : ∀ p ∈ passwordDigests,
    p.2.length = 32 ∧ ∀ c ∈ p.2, c ∈ hexDigits := by decide +kernel

/-- The digest of a password of the list, and that of the empty text for any other. -/
def digestOf (s : Str) : Str :=
  (passwordDigests.lookup s).getD (lit "d41d8cd98f00b204e9800998ecf8427e")

theorem digestOf_spec (s : Str) : (digestOf s).length = 32 ∧ ∀ c ∈ digestOf s, c ∈ hexDigits := by
  unfold digestOf
  cases hlookup : passwordDigests.lookup s with
  | none => decide +kernel
  | some d =>
    obtain ⟨l₁, l₂, hl, -⟩ := List.lookup_eq_some_iff.mp hlookup
    exact passwordDigests_spec (s, d) (hl ▸ List.mem_append_right _ (List.mem_cons_self ..))

def loginSys : Sys :=
  { quietSys with hash := digestOf, hash_hex := fun s => (digestOf_spec s).2 }

/-- Neither way lets `guest` in. -/
theorem agree_guest : Agree loginSys (lit "guest") (lit "guest") := by
  have hname : ∀ u ∈ validUsers, lit "guest" ≠ u.name ∧ (lit "guest").dropLast ≠ u.name := by decide
  refine (agree_iff (fun _ => rfl) (fun s => (digestOf_spec s).1) (by decide)
    (by decide +kernel)).mpr ⟨by decide, ?_, ?_⟩
  · rintro ⟨u, hu, heq, -⟩
    exact (hname u hu).1 heq
  · rintro ⟨u, hu, -, c, -, heq, -⟩
    exact (hname u hu).2 (by rw [heq, List.dropLast_concat])

/-- The table does not let `admin` in. -/
theorem not_agree :
    ¬ ∀ (y : Sys) (id pas : Str), (∀ t, y.fault t = none) → (∀ s, (y.hash s).length = 32) →
      id ≠ [] → pas ≠ [] → QuoteFree id → QuoteFree pas →
      (∀ c ∈ id ++ pas, c ≠ ',' ∧ c ≠ '\r' ∧ c ≠ '\n' ∧ c ≠ '\x00') →
      (∀ u ∈ validUsers, y.hash pas = y.hash u.pass → pas = u.pass) → Agree y id pas := by
  intro h
  have hagree := h loginSys (lit "admin") (lit "admin") (fun _ => rfl) (fun s => (digestOf_spec s).1)
    (by decide) (by decide) (by decide) (by decide) (by decide) (by decide +kernel)
  exact absurd hagree.1 (by decide)

end Thor
