import Thor.Qr.Codewords
import Thor.Qr.Content

/-!
# A reader by the standard

What a reader may make of a picture, in which some modules are wrong: it takes the format with
at most three wrong bits, lifts the mask, and in every block of codewords takes a word of the
code within half of the number of the block's check codewords.

- `Reads version f bits`: a reader may find these data codewords in the modules `f`.
  `ReadsAs`: and this content.
- `Near`: two pictures that differ in no more modules than that.
- `HasLandmarks.format_read`, `HasLandmarks.version_read`: the format and the version of a
  picture are read in one way, from either of their copies.
-/

namespace Qr

open CLib

/-- A bit of the codewords, with the mask lifted. -/
def bitRead (version mask : Nat) (f : Nat × Nat → Bool) (i : Nat) : Bool :=
  let p := (dataModules version).getD i (0, 0)
  f p ^^ decide (maskCondition mask p.2 p.1)

def codewordRead (version mask : Nat) (f : Nat × Nat → Bool) (k : Nat) : Byte :=
  BitVec.ofNat 8 (ofBits ((List.range 8).map fun j => bitRead version mask f (8 * k + j)))

/-- A copy of the format. -/
def formatRead (version : Nat) (other : Bool) (f : Nat × Nat → Bool) : List Bool :=
  modulesAt f 15 (formatPlace (version * 4 + 17) other)

/-- A copy of the version. -/
def versionRead (version : Nat) (other : Bool) (f : Nat × Nat → Bool) : List Bool :=
  modulesAt f 18 (versionPlace (version * 4 + 17) other)

/-- The data codewords that a reader may find in a picture. -/
def Reads (version : Nat) (f : Nat × Nat → Bool) (bits : List Bool) : Prop :=
  ∃ (level : Level) (mask : Nat) (blocks : Nat → List Byte), mask ≤ 7 ∧
    distance (formatBits level mask) (formatRead version false f) ≤ 3 ∧
    (∀ i < (layout level version).count,
      (layout level version).CorrectsTo (codewordRead version mask f) i (blocks i)) ∧
    bits = bitsOf ((List.range (layout level version).count).flatMap blocks)

/-- The content that a reader may find in a picture. -/
def ReadsAs (version : Nat) (f : Nat × Nat → Bool) (parts : List Part) : Prop :=
  ∃ bits, Reads version f bits ∧ readParts version (bits.length + 1) bits = some parts

/-- The modules that `f` and `f'` differ at are few, where a reader looks. -/
structure Near (version : Nat) (level : Level) (mask : Nat) (f f' : Nat × Nat → Bool) : Prop where
  format_near : distance (formatRead version false f) (formatRead version false f') ≤ 3
  blocks_near : ∀ i < (layout level version).count,
    distance ((layout level version).received (codewordRead version mask f) i)
      ((layout level version).received (codewordRead version mask f') i) ≤
        (layout level version).check / 2

/-- A picture in which nothing is wrong. -/
theorem Near.refl (version : Nat) (level : Level) (mask : Nat) (f : Nat × Nat → Bool) :
    Near version level mask f f where
  format_near := by rw [distance_self]; exact Nat.zero_le 3
  blocks_near i _ := by rw [distance_self]; exact Nat.zero_le _

/-! ## Format and version -/

@[simp] theorem length_formatRead (version : Nat) (other : Bool) (f : Nat × Nat → Bool) :
    (formatRead version other f).length = 15 := length_modulesAt ..

@[simp] theorem length_versionRead (version : Nat) (other : Bool) (f : Nat × Nat → Bool) :
    (versionRead version other f).length = 18 := length_modulesAt ..

/-- Two formats differ in seven bits at least. -/
theorem format_apart {level level' : Level} {mask mask' : Nat} (hmask : mask ≤ 7)
    (hmask' : mask' ≤ 7)
    (hnear : distance (formatBits level mask) (formatBits level' mask') ≤ 6) :
    level = level' ∧ mask = mask' := by
  have hall : ∀ m ≤ 7, ∀ m' ≤ 7,
      distance (formatBits level m) (formatBits level' m') ≤ 6 → level = level' ∧ m = m' := by
    cases level <;> cases level' <;> decide +kernel
  exact hall mask hmask mask' hmask' hnear

/-- Two versions that are written down differ in seven bits at least. -/
theorem version_apart {v v' : Nat} (h7 : 7 ≤ v) (h40 : v ≤ 40) (h7' : 7 ≤ v') (h40' : v' ≤ 40)
    (hnear : distance (versionBits v) (versionBits v') ≤ 6) : v = v' := by
  have hall : ∀ w ≤ 40, ∀ w' ≤ 40, 7 ≤ w → 7 ≤ w' →
      distance (versionBits w) (versionBits w') ≤ 6 → w = w' := by
    decide +kernel
  exact hall v h40 v' h40' h7 h7' hnear

/-- Two words near to one that was read are near to each other. -/
theorem distance_of_read {w w' read : List Bool} (hlen : w.length = read.length)
    (hlen' : w'.length = read.length) (h : distance w read ≤ 3) (h' : distance w' read ≤ 3) :
    distance w' w ≤ 6 := by
  have hcomm := distance_comm hlen
  have htri := distance_triangle hlen' hlen.symm
  omega

/-- At most one format is near to what was read. -/
theorem format_unique {level level' : Level} {mask mask' version : Nat} {other : Bool}
    {f : Nat × Nat → Bool} (hmask : mask ≤ 7) (hmask' : mask' ≤ 7)
    (h : distance (formatBits level mask) (formatRead version other f) ≤ 3)
    (h' : distance (formatBits level' mask') (formatRead version other f) ≤ 3) :
    level = level' ∧ mask = mask' :=
  format_apart hmask hmask' (distance_of_read (by simp) (by simp) h' h)

namespace HasLandmarks

variable {version mask : Nat} {level : Level} {f f' : Nat × Nat → Bool}

/-- A copy of the format with at most three wrong modules is near to the right one only. -/
theorem format_read (h : HasLandmarks version level mask f) (hmask : mask ≤ 7) {other : Bool}
    (hnear : distance (formatRead version other f) (formatRead version other f') ≤ 3) {l : Level}
    {m : Nat} (hm : m ≤ 7) :
    distance (formatBits l m) (formatRead version other f') ≤ 3 ↔ l = level ∧ m = mask := by
  rw [formatRead, h.formatWord] at hnear
  constructor
  · intro hread
    exact format_unique hm hmask hread hnear
  · rintro ⟨rfl, rfl⟩
    exact hnear

/-- The same of a copy of the version. -/
theorem version_read (h : HasLandmarks version level mask f) (h7 : 7 ≤ version)
    (h40 : version ≤ 40) {other : Bool}
    (hnear : distance (versionRead version other f) (versionRead version other f') ≤ 3) {v : Nat}
    (hv7 : 7 ≤ v) (hv40 : v ≤ 40) :
    distance (versionBits v) (versionRead version other f') ≤ 3 ↔ v = version := by
  rw [versionRead, h.versionWord h7] at hnear
  constructor
  · intro hread
    exact version_apart hv7 hv40 h7 h40 (distance_of_read (by simp) (by simp) hnear hread)
  · rintro rfl
    exact hnear

end HasLandmarks

end Qr
