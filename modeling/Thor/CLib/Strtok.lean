import Thor.CLib.Str

/-!
# `strtok`

`strtok` keeps one position between calls. We model a call as a function of
the text that position points at (the *saved* text): it returns the token, or
`NULL`, and the text the next call will look at.

- `cutToken`: from the first byte of a token to the delimiter that ends it.
- `strtok`: one call.
- `fields`: all the tokens that successive calls with one delimiter set return.
  `strtok_fst` and `fields_strtok` tie one call to this list, so that a parse
  made of many calls is read as taking the list apart.
-/

namespace CLib

/-- The rest of a token whose first byte has been seen, and the text after the
delimiter that ends it. -/
def cutToken (d : Str) : Str → Str × Str
  | [] => ([], [])
  | c :: s => if c ∈ d then ([], s) else (c :: (cutToken d s).1, (cutToken d s).2)

/-- One call `strtok(NULL, d)` with the given saved text: the token, and the
text saved for the next call. -/
def strtok (d : Str) : Str → Option Str × Str
  | [] => (none, [])
  | c :: s =>
    if c ∈ d then strtok d s else (some (c :: (cutToken d s).1), (cutToken d s).2)

/-- The tokens still to come, the one under construction being `acc`. -/
def fieldsFrom (d : Str) : Str → Str → List Str
  | acc, [] => if acc = [] then [] else [acc]
  | acc, c :: s =>
    if c ∈ d then (if acc = [] then fieldsFrom d [] s else acc :: fieldsFrom d [] s)
    else fieldsFrom d (acc ++ [c]) s

/-- The tokens that successive calls with the delimiters `d` return. -/
def fields (d s : Str) : List Str := fieldsFrom d [] s

variable {d : Str}

/-! ## One call against the list of fields -/

theorem fieldsFrom_cutToken :
    ∀ (s acc : Str), acc ≠ [] →
      fieldsFrom d acc s = (acc ++ (cutToken d s).1) :: fields d (cutToken d s).2
  | [], acc, hacc => by simp [fieldsFrom, cutToken, fields, hacc]
  | c :: s, acc, hacc => by
    by_cases hc : c ∈ d
    · simp [fieldsFrom, cutToken, fields, hc, hacc]
    · have ih := fieldsFrom_cutToken s (acc ++ [c]) (by simp)
      simp only [fieldsFrom, cutToken, if_neg hc]
      rw [ih]
      simp

theorem fields_cons_of_mem {c : Char} (hc : c ∈ d) (s : Str) :
    fields d (c :: s) = fields d s := by
  simp [fields, fieldsFrom, hc]

theorem fields_cons_of_notMem {c : Char} (hc : c ∉ d) (s : Str) :
    fields d (c :: s) = (c :: (cutToken d s).1) :: fields d (cutToken d s).2 := by
  show fieldsFrom d [] (c :: s) = _
  rw [fieldsFrom, if_neg hc, fieldsFrom_cutToken s ([] ++ [c]) (by simp)]
  rfl

/-- A call returns the first of the fields, `NULL` when there is none. -/
theorem strtok_fst : ∀ s : Str, (strtok d s).1 = (fields d s).head?
  | [] => rfl
  | c :: s => by
    by_cases hc : c ∈ d
    · rw [strtok, if_pos hc, strtok_fst s, fields_cons_of_mem hc]
    · rw [strtok, if_neg hc, fields_cons_of_notMem hc]
      rfl

/-- A call leaves the other fields for later calls. -/
theorem fields_strtok : ∀ s : Str, fields d (strtok d s).2 = (fields d s).tail
  | [] => rfl
  | c :: s => by
    by_cases hc : c ∈ d
    · rw [strtok, if_pos hc, fields_strtok s, fields_cons_of_mem hc]
    · rw [strtok, if_neg hc, fields_cons_of_notMem hc]
      rfl

theorem fields_of_strtok {s f r : Str} (h : strtok d s = (some f, r)) :
    fields d s = f :: fields d r := by
  have hhead := strtok_fst (d := d) s
  have htail := fields_strtok (d := d) s
  rw [h] at hhead htail
  rw [htail]
  exact (List.cons_head?_tail hhead.symm).symm

/-- The text saved after `n` calls. -/
def strtokRest (d : Str) : Nat → Str → Str
  | 0, s => s
  | n + 1, s => (strtok d (strtokRest d n s)).2

theorem fields_strtokRest (s : Str) : ∀ n, fields d (strtokRest d n s) = (fields d s).drop n
  | 0 => rfl
  | n + 1 => by rw [strtokRest, fields_strtok, fields_strtokRest s n, List.tail_drop]

/-- The call after `n` others returns field number `n`. -/
theorem strtok_strtokRest (s : Str) (n : Nat) :
    (strtok d (strtokRest d n s)).1 = (fields d s)[n]? := by
  rw [strtok_fst, fields_strtokRest, List.head?_drop]

/-! ## What a token can contain -/

theorem mem_cutToken_fst : ∀ {s : Str} {c : Char}, c ∈ (cutToken d s).1 → c ∈ s ∧ c ∉ d
  | [], _, h => absurd h (by simp [cutToken])
  | x :: s, c, h => by
    by_cases hx : x ∈ d
    · simp [cutToken, hx] at h
    · rw [cutToken, if_neg hx] at h
      rcases List.mem_cons.mp h with rfl | h
      · exact ⟨List.mem_cons_self .., hx⟩
      · exact ⟨List.mem_cons_of_mem _ (mem_cutToken_fst h).1, (mem_cutToken_fst h).2⟩

theorem mem_cutToken_snd : ∀ {s : Str} {c : Char}, c ∈ (cutToken d s).2 → c ∈ s
  | [], _, h => h
  | x :: s, c, h => by
    by_cases hx : x ∈ d
    · rw [cutToken, if_pos hx] at h
      exact List.mem_cons_of_mem _ h
    · rw [cutToken, if_neg hx] at h
      exact List.mem_cons_of_mem _ (mem_cutToken_snd h)

/-- A token is not empty, and its bytes come from the text and are no
delimiters. -/
theorem strtok_some : ∀ {s t r : Str}, strtok d s = (some t, r) →
    t ≠ [] ∧ ∀ c ∈ t, c ∈ s ∧ c ∉ d
  | [], _, _, h => (nomatch h)
  | x :: s, t, r, h => by
    by_cases hx : x ∈ d
    · rw [strtok, if_pos hx] at h
      obtain ⟨hne, hall⟩ := strtok_some h
      exact ⟨hne, fun c hc => ⟨List.mem_cons_of_mem _ (hall c hc).1, (hall c hc).2⟩⟩
    · rw [strtok, if_neg hx] at h
      obtain ⟨rfl, -⟩ : x :: (cutToken d s).1 = t ∧ (cutToken d s).2 = r := by simpa using h
      refine ⟨by simp, fun c hc => ?_⟩
      rcases List.mem_cons.mp hc with rfl | hc
      · exact ⟨List.mem_cons_self .., hx⟩
      · exact ⟨List.mem_cons_of_mem _ (mem_cutToken_fst hc).1, (mem_cutToken_fst hc).2⟩

/-- The saved text is part of the text the call looked at. -/
theorem mem_strtok_snd : ∀ {s : Str} {c : Char}, c ∈ (strtok d s).2 → c ∈ s
  | [], _, h => h
  | x :: s, c, h => by
    by_cases hx : x ∈ d
    · rw [strtok, if_pos hx] at h
      exact List.mem_cons_of_mem _ (mem_strtok_snd h)
    · rw [strtok, if_neg hx] at h
      exact List.mem_cons_of_mem _ (mem_cutToken_snd h)

theorem strtok_none_iff : ∀ {s : Str}, (strtok d s).1 = none ↔ ∀ c ∈ s, c ∈ d
  | [] => by simp [strtok]
  | x :: s => by
    by_cases hx : x ∈ d
    · rw [strtok, if_pos hx, strtok_none_iff]
      simp [hx]
    · rw [strtok, if_neg hx]
      simp [hx]

/-! ## Cutting a field off the front -/

theorem cutToken_append : ∀ {f : Str}, (∀ c ∈ f, c ∉ d) → ∀ rest : Str,
    cutToken d (f ++ rest) = (f ++ (cutToken d rest).1, (cutToken d rest).2)
  | [], _, _ => rfl
  | c :: f, hf, rest => by
    have hc : c ∉ d := hf c (List.mem_cons_self ..)
    have ih := cutToken_append (fun x hx => hf x (List.mem_cons_of_mem _ hx)) rest
    simp [cutToken, hc, ih]

/-- A token is what stands before the first delimiter, if that is not empty. -/
theorem strtok_append {f : Str} (hne : f ≠ []) (hf : ∀ c ∈ f, c ∉ d) (rest : Str) :
    strtok d (f ++ rest) = (some (f ++ (cutToken d rest).1), (cutToken d rest).2) := by
  cases f with
  | nil => exact absurd rfl hne
  | cons c f =>
    have hc : c ∉ d := hf c (List.mem_cons_self ..)
    have hcut := cutToken_append (fun x hx => hf x (List.mem_cons_of_mem _ hx)) rest
    rw [List.cons_append, strtok, if_neg hc, hcut]
    rfl

/-- Delimiters in front are skipped. -/
theorem strtok_skip {k : Str} (hk : ∀ c ∈ k, c ∈ d) (s : Str) :
    strtok d (k ++ s) = strtok d s := by
  induction k with
  | nil => rfl
  | cons c k ih =>
    rw [List.cons_append, strtok, if_pos (hk c (List.mem_cons_self ..))]
    exact ih fun x hx => hk x (List.mem_cons_of_mem c hx)

/-- The field before a delimiter. -/
theorem strtok_field {f : Str} (hne : f ≠ []) (hf : ∀ c ∈ f, c ∉ d) {c : Char} (hc : c ∈ d)
    (rest : Str) : strtok d (f ++ c :: rest) = (some f, rest) := by
  rw [strtok_append hne hf]
  simp [cutToken, hc]

/-- The call that meets a field and the delimiter behind it. -/
theorem strtokRest_field {f s : Str} {n : Nat} {c : Char} {rest : Str}
    (h : strtokRest d n s = f ++ c :: rest) (hne : f ≠ []) (hf : ∀ x ∈ f, x ∉ d) (hc : c ∈ d) :
    (fields d s)[n]? = some f ∧ strtokRest d (n + 1) s = rest := by
  rw [← strtok_strtokRest, strtokRest, h, strtok_field hne hf hc]
  exact ⟨rfl, rfl⟩

/-- The last field. -/
theorem strtok_last {f : Str} (hne : f ≠ []) (hf : ∀ c ∈ f, c ∉ d) :
    strtok d f = (some f, []) := by
  have h := strtok_append hne hf []
  simpa [cutToken] using h

/-- The token in front of the first separator, when something stands there. -/
theorem strtok_takeWhile {c : Char} {s : Str} (hne : s.takeWhile (· ≠ c) ≠ []) :
    (strtok [c] s).1 = some (s.takeWhile (· ≠ c)) := by
  have hfree : ∀ x ∈ s.takeWhile (· ≠ c), x ∉ [c] := fun x hx => by
    simpa using List.mem_takeWhile_imp hx
  have hrest : (cutToken [c] (s.dropWhile (· ≠ c))).1 = [] := by
    cases hdrop : s.dropWhile (· ≠ c) with
    | nil => rfl
    | cons x t =>
      have hx := List.head?_dropWhile_not (· ≠ c) s
      rw [hdrop] at hx
      have hmem : x ∈ [c] := by simpa using hx
      rw [cutToken, if_pos hmem]
  have hcut := strtok_append hne hfree (s.dropWhile (· ≠ c))
  rw [List.takeWhile_append_dropWhile, hrest, List.append_nil] at hcut
  rw [hcut]

/-! ## Joined fields -/

/-- `f`, then the others, each behind a separator. -/
def joinWith (c : Char) (f : Str) (fs : List Str) : Str := f ++ (fs.map (c :: ·)).flatten

theorem joinWith_cons (c : Char) (f g : Str) (fs : List Str) :
    joinWith c f (g :: fs) = f ++ c :: joinWith c g fs := rfl

/-- `strtok` finds the pieces that are not empty, in order. -/
theorem fields_joinWith {c : Char} (hc : c ∈ d) : ∀ (f : Str) (fs : List Str),
    (∀ g ∈ f :: fs, ∀ x ∈ g, x ∉ d) →
      fields d (joinWith c f fs) = (f :: fs).filter (· ≠ [])
  | f, [], h => by
    rw [show joinWith c f [] = f from List.append_nil f]
    by_cases hne : f = []
    · subst hne
      rfl
    · rw [List.filter_cons_of_pos (by simpa using hne), List.filter_nil]
      exact fields_of_strtok (strtok_last hne (h f (List.mem_singleton_self f)))
  | f, g :: fs, h => by
    have ih := fields_joinWith hc g fs fun p hp => h p (List.mem_cons_of_mem _ hp)
    rw [joinWith_cons]
    by_cases hne : f = []
    · subst hne
      rw [List.filter_cons_of_neg (by simp), ← ih]
      exact fields_cons_of_mem hc _
    · rw [List.filter_cons_of_pos (by simpa using hne), ← ih]
      exact fields_of_strtok (strtok_field hne (h f (List.mem_cons_self ..)) hc _)

/-- A text without the separator lies in one of the pieces. -/
theorem infix_joinWith_iff {m : Str} {c : Char} (hm : m ≠ []) (hc : c ∉ m) :
    ∀ (f : Str) (fs : List Str), m <:+: joinWith c f fs ↔ ∃ g ∈ f :: fs, m <:+: g
  | f, [] => by simp [joinWith]
  | f, g :: fs => by
    rw [joinWith_cons, infix_append_cons_iff hm hc, infix_joinWith_iff hm hc g fs]
    simp

/-! ## What the fields are -/

/-- Every field is a non-empty part of the text without a delimiter. -/
theorem mem_fieldsFrom : ∀ {s acc f : Str}, f ∈ fieldsFrom d acc s → (∀ c ∈ acc, c ∉ d) →
    f ≠ [] ∧ ∀ c ∈ f, (c ∈ acc ∨ c ∈ s) ∧ c ∉ d
  | [], acc, f, h, hacc => by
    by_cases ha : acc = []
    · simp [fieldsFrom, ha] at h
    · obtain rfl : f = acc := by simpa [fieldsFrom, ha] using h
      exact ⟨ha, fun c hc => ⟨.inl hc, hacc c hc⟩⟩
  | x :: s, acc, f, h, hacc => by
    by_cases hx : x ∈ d
    · have hrest : f ∈ fieldsFrom d [] s →
          f ≠ [] ∧ ∀ c ∈ f, (c ∈ acc ∨ c ∈ x :: s) ∧ c ∉ d := by
        intro h
        obtain ⟨hne, hall⟩ := mem_fieldsFrom h (by simp)
        refine ⟨hne, fun c hc => ⟨.inr ?_, (hall c hc).2⟩⟩
        simpa using Or.inr (hall c hc).1
      rw [fieldsFrom, if_pos hx] at h
      by_cases ha : acc = []
      · rw [if_pos ha] at h
        exact hrest h
      · rw [if_neg ha] at h
        rcases List.mem_cons.mp h with rfl | h
        · exact ⟨ha, fun c hc => ⟨.inl hc, hacc c hc⟩⟩
        · exact hrest h
    · rw [fieldsFrom, if_neg hx] at h
      have hacc' : ∀ c ∈ acc ++ [x], c ∉ d := by
        intro c hc
        rcases List.mem_append.mp hc with hc | hc
        · exact hacc c hc
        · rwa [List.mem_singleton.mp hc]
      obtain ⟨hne, hall⟩ := mem_fieldsFrom h hacc'
      refine ⟨hne, fun c hc => ⟨?_, (hall c hc).2⟩⟩
      have := (hall c hc).1
      simp only [List.mem_append, List.mem_cons] at this ⊢
      tauto

theorem mem_fields {s f : Str} (h : f ∈ fields d s) : f ≠ [] ∧ ∀ c ∈ f, c ∈ s ∧ c ∉ d := by
  obtain ⟨hne, hall⟩ := mem_fieldsFrom h (by simp)
  exact ⟨hne, fun c hc => ⟨by simpa using (hall c hc).1, (hall c hc).2⟩⟩

example : fields (lit ",") (lit ",db,,add,<$#EOT#$>") =
    [lit "db", lit "add", lit "<$#EOT#$>"] := by decide

end CLib
