import Thor.CLib.Str

/-!
# Bytes behind a pointer

A string as the memory has it: the bytes from a pointer to the end of what was allocated
there, with the terminator among them.

- `cstr`: the string, up to the first NUL.
- `StrPtr`: a pointer behind which there is one.
- `overwrite`: what a read that delivers some bytes does to an array.
-/

namespace CLib

/-- The string that some bytes hold. -/
def cstr (mem : Str) : Str := mem.takeWhile (· != '\x00')

/-- A pointer to a string: the bytes from it to the end of the allocation. -/
structure StrPtr where
  mem : Str
  terminated : '\x00' ∈ mem

/-- The string pointed to. -/
def StrPtr.str (p : StrPtr) : Str := cstr p.mem

/-- The first bytes are replaced, the others stay. -/
def overwrite (bytes mem : Str) : Str := bytes ++ mem.drop bytes.length

theorem nul_notMem_cstr (mem : Str) : '\x00' ∉ cstr mem := by
  intro h
  have hne := List.mem_takeWhile_imp h
  exact absurd hne (by decide)

/-- Up to the terminator it is the string. -/
theorem cstr_append_nul {s : Str} (hs : '\x00' ∉ s) (rest : Str) :
    cstr (s ++ '\x00' :: rest) = s := by
  have hall : ∀ c ∈ s, (c != '\x00') = true := by
    intro c hc
    rw [bne_iff_ne]
    rintro rfl
    exact hs hc
  rw [cstr, List.takeWhile_append_of_pos hall, List.takeWhile_cons_of_neg (by decide),
    List.append_nil]

theorem eq_cstr_append {mem : Str} (h : '\x00' ∈ mem) : ∃ rest, mem = cstr mem ++ '\x00' :: rest := by
  obtain ⟨s, rest, rfl, hs⟩ := List.eq_append_cons_of_mem h
  exact ⟨rest, by rw [cstr_append_nul hs]⟩

end CLib
