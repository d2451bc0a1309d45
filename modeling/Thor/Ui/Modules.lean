import Thor.CLib.Bytes
import Thor.Ui.Capacity

/-!
# The modules of a symbol (ui/qr_generator.c)

A symbol is a square of modules, black or white. Its array has the size of a side in the
first byte, and then one bit for each module, row by row.

- `getModule`, `setModule`, `setModuleBounded`: one module. `IsSymbol` is what their
  assertions ask of the array.
- `pixelAt`: the module that an array has at some coordinates.
- `Drawn s q q' ws`: `q'` is `q` with the writes `ws` to its modules, and nothing else.
- `drawn_loop`: a loop of drawings draws what its rounds draw.
-/

namespace Thor

open CLib

def getBit (x i : Nat) : Bool := ((x >>> i) &&& 1) != 0

def getModule (qrcode : Bytes) (x y : Nat) : Option Bool := do
  let qrsize := (← load qrcode 0).toNat
  assert (21 ≤ qrsize ∧ qrsize ≤ 177 ∧ x < qrsize ∧ y < qrsize)
  let index := y * qrsize + x
  let byte ← load qrcode ((index >>> 3) + 1)
  return getBit byte.toNat (index &&& 7)

def setModule (qrcode : Bytes) (x y : Nat) (isBlack : Bool) : Option Bytes := do
  let qrsize := (← load qrcode 0).toNat
  assert (21 ≤ qrsize ∧ qrsize ≤ 177 ∧ x < qrsize ∧ y < qrsize)
  let index := y * qrsize + x
  let bitIndex := index &&& 7
  let byteIndex := (index >>> 3) + 1
  let byte ← load qrcode byteIndex
  if isBlack then store qrcode byteIndex (byte ||| BitVec.ofNat 8 (1 <<< bitIndex))
  else store qrcode byteIndex (byte &&& BitVec.ofNat 8 ((1 <<< bitIndex) ^^^ 0xFF))

def setModuleBounded (qrcode : Bytes) (x y : Int) (isBlack : Bool) : Option Bytes := do
  let qrsize := (← load qrcode 0).toNat
  if 0 ≤ x ∧ x < qrsize ∧ 0 ≤ y ∧ y < qrsize then setModule qrcode x.toNat y.toNat isBlack
  else some qrcode

/-- `qrcodegen_getSize`. -/
def getSize (qrcode : Bytes) : Option Nat := do
  let result := (← load qrcode 0).toNat
  assert (versionMin * 4 + 17 ≤ result ∧ result ≤ versionMax * 4 + 17)
  return result

/-- `qrcodegen_getModule`: white outside of the symbol. -/
def getModuleBounded (qrcode : Bytes) (x y : Int) : Option Bool := do
  let qrsize := (← load qrcode 0).toNat
  if 0 ≤ x ∧ x < qrsize ∧ 0 ≤ y ∧ y < qrsize then getModule qrcode x.toNat y.toNat
  else some false

/-! ## Symbols -/

/-- An array with a symbol of side `s`. -/
structure IsSymbol (s : Nat) (q : Bytes) : Prop where
  size_eq : octetAt q 0 = BitVec.ofNat 8 s
  le_size : 21 ≤ s
  size_le : s ≤ 177
  room : (s * s + 7) / 8 + 1 ≤ q.size

/-- A module by its coordinates, column first; white outside of the symbol. -/
def pixelAt (s : Nat) (q : Bytes) (p : Nat × Nat) : Bool :=
  if p.1 < s ∧ p.2 < s then cellAt q (p.2 * s + p.1) else false

theorem IsSymbol.toNat_size {s : Nat} {q : Bytes} (h : IsSymbol s q) : (octetAt q 0).toNat = s := by
  have := h.size_le
  rw [h.size_eq, BitVec.toNat_ofNat, Nat.mod_eq_of_lt (by omega)]

theorem IsSymbol.pos {s : Nat} {q : Bytes} (h : IsSymbol s q) : 0 < q.size := by
  have := h.room
  omega

theorem index_lt {s x y : Nat} (hx : x < s) (hy : y < s) : y * s + x < s * s := by
  have hmul : (y + 1) * s ≤ s * s := Nat.mul_le_mul_right s hy
  rw [Nat.succ_mul] at hmul
  omega

theorem index_inj {s x y x' y' : Nat} (hx : x < s) (hx' : x' < s)
    (h : y * s + x = y' * s + x') : x = x' ∧ y = y' := by
  have hpos : 0 < s := by omega
  have hmod := congrArg (· % s) h
  have hdiv := congrArg (· / s) h
  simp only [Nat.mul_add_mod_self_right, Nat.mod_eq_of_lt hx, Nat.mod_eq_of_lt hx'] at hmod
  rw [Nat.add_comm, Nat.add_comm (y' * s)] at hdiv
  simp only [Nat.add_mul_div_right _ _ hpos, Nat.div_eq_of_lt hx, Nat.div_eq_of_lt hx',
    Nat.zero_add] at hdiv
  exact ⟨hmod, hdiv⟩

theorem IsSymbol.byte_lt {s : Nat} {q : Bytes} (h : IsSymbol s q) {k : Nat} (hk : k < s * s) :
    k / 8 + 1 < q.size := by
  have := h.room
  omega

theorem getBit_eq (b : Byte) (i : Nat) : getBit b.toNat i = b.getLsbD i := by
  rw [getBit, BitVec.getLsbD, Nat.testBit, Nat.and_comm]

theorem getModule_eq {s : Nat} {q : Bytes} (h : IsSymbol s q) {x y : Nat} (hx : x < s)
    (hy : y < s) : getModule q x y = some (pixelAt s q (x, y)) := by
  have hin := h.byte_lt (index_lt hx hy)
  rw [getModule, load_bind h.pos, h.toNat_size, assert_bind ⟨h.le_size, h.size_le, hx, hy⟩]
  show (load q ((y * s + x) >>> 3 + 1) >>= fun byte =>
    some (getBit byte.toNat ((y * s + x) &&& 7))) = _
  rw [Nat.shiftRight_eq_div_pow, load_bind hin, getBit_eq, Nat.and_two_pow_sub_one_eq_mod _ 3,
    pixelAt, if_pos ⟨hx, hy⟩]
  rfl

/-- `q'` is `q` with some writes to its modules. -/
structure Drawn (s : Nat) (q q' : Bytes) (ws : List ((Nat × Nat) × Bool)) : Prop where
  size_eq : q'.size = q.size
  head_eq : octetAt q' 0 = octetAt q 0
  padding_eq : ∀ k, s * s ≤ k → cellAt q' k = cellAt q k
  pixels_eq : pixelAt s q' = writeAll (pixelAt s q) ws

theorem IsSymbol.of_drawn {s : Nat} {q q' : Bytes} {ws : List ((Nat × Nat) × Bool)}
    (h : IsSymbol s q) (hd : Drawn s q q' ws) : IsSymbol s q' :=
  ⟨hd.head_eq.trans h.size_eq, h.le_size, h.size_le, hd.size_eq ▸ h.room⟩

theorem Drawn.refl (s : Nat) (q : Bytes) : Drawn s q q [] :=
  ⟨rfl, rfl, fun _ _ => rfl, rfl⟩

theorem Drawn.trans {s : Nat} {q q' q'' : Bytes} {ws ws' : List ((Nat × Nat) × Bool)}
    (h : Drawn s q q' ws) (h' : Drawn s q' q'' ws') : Drawn s q q'' (ws ++ ws') where
  size_eq := h'.size_eq.trans h.size_eq
  head_eq := h'.head_eq.trans h.head_eq
  padding_eq k hk := (h'.padding_eq k hk).trans (h.padding_eq k hk)
  pixels_eq := by rw [h'.pixels_eq, h.pixels_eq, writeAll_append]

/-- What is drawn is known by the symbol before and the modules after. -/
theorem eq_of_pixels {s : Nat} {q q₁ q₂ : Bytes} {ws₁ ws₂ : List ((Nat × Nat) × Bool)}
    (h₁ : Drawn s q q₁ ws₁) (h₂ : Drawn s q q₂ ws₂) (h : pixelAt s q₁ = pixelAt s q₂) :
    q₁ = q₂ := by
  refine Bytes.ext_cells (h₁.size_eq.trans h₂.size_eq.symm)
    (h₁.head_eq.trans h₂.head_eq.symm) fun k => ?_
  by_cases hk : s * s ≤ k
  · rw [h₁.padding_eq k hk, h₂.padding_eq k hk]
  · have hs : 0 < s := Nat.pos_of_ne_zero fun h0 => hk (by simp [h0])
    have hx : k % s < s := Nat.mod_lt k hs
    have hy : k / s < s := Nat.div_lt_of_lt_mul (by omega)
    have hp := congrFun h (k % s, k / s)
    rwa [pixelAt, pixelAt, if_pos ⟨hx, hy⟩, if_pos ⟨hx, hy⟩, Nat.mul_comm,
      Nat.div_add_mod] at hp

/-- A byte with one bit changed. -/
theorem getLsbD_change (b : Byte) (c : Bool) {j : Nat} (hj : j < 8) (m : Nat) :
    (if c then b ||| BitVec.ofNat 8 (1 <<< j)
      else b &&& BitVec.ofNat 8 ((1 <<< j) ^^^ 0xFF)).getLsbD m =
      if m = j then c else b.getLsbD m := by
  cases c with
  | true =>
    have hsingle := getLsbD_single true hj m
    rw [Bool.toNat_true, Bool.and_true] at hsingle
    rw [if_pos rfl, BitVec.getLsbD_or, hsingle]
    by_cases hm : m = j <;> simp [hm]
  | false =>
    have hmask : ∀ j < 8, ∀ m < 8,
        (BitVec.ofNat 8 ((1 <<< j) ^^^ 0xFF)).getLsbD m = !decide (m = j) := by decide
    rw [if_neg (by decide), BitVec.getLsbD_and]
    by_cases hm : m < 8
    · rw [hmask j hj m hm]
      by_cases hmj : m = j <;> simp [hmj]
    · rw [BitVec.getLsbD_of_ge b m (by omega), Bool.false_and, if_neg (by omega)]

theorem cellAt_set {q : Bytes} {k : Nat} (c : Bool) (h : k / 8 + 1 < q.size) :
    cellAt (q.setIfInBounds (k / 8 + 1)
      (if c then octetAt q (k / 8 + 1) ||| BitVec.ofNat 8 (1 <<< (k % 8))
        else octetAt q (k / 8 + 1) &&& BitVec.ofNat 8 ((1 <<< (k % 8)) ^^^ 0xFF))) =
      Function.update (cellAt q) k c := by
  funext k'
  rw [cellAt, octetAt_set _ h, Function.update_apply]
  by_cases hbyte : k / 8 + 1 = k' / 8 + 1
  · rw [if_pos hbyte, getLsbD_change _ _ (by omega), hbyte]
    by_cases hk : k' = k
    · rw [if_pos hk, if_pos (by rw [hk])]
    · rw [if_neg hk, if_neg (by omega)]
      rfl
  · rw [if_neg hbyte, if_neg (by omega)]
    rfl

/-- One module is set. -/
theorem setModule_gives {s : Nat} {q : Bytes} (h : IsSymbol s q) {x y : Nat} (hx : x < s)
    (hy : y < s) (c : Bool) :
    Gives (setModule q x y c) fun q' => Drawn s q q' [((x, y), c)] := by
  have hlt := index_lt hx hy
  have hin := h.byte_lt hlt
  have hset := cellAt_set c hin
  rw [setModule, load_bind h.pos, h.toNat_size, assert_bind ⟨h.le_size, h.size_le, hx, hy⟩]
  show Gives (load q ((y * s + x) >>> 3 + 1) >>= fun byte =>
    if c then store q ((y * s + x) >>> 3 + 1) (byte ||| BitVec.ofNat 8 (1 <<< ((y * s + x) &&& 7)))
    else store q ((y * s + x) >>> 3 + 1)
      (byte &&& BitVec.ofNat 8 ((1 <<< ((y * s + x) &&& 7)) ^^^ 0xFF))) _
  rw [Nat.shiftRight_eq_div_pow, load_bind hin, Nat.and_two_pow_sub_one_eq_mod _ 3, ← apply_ite,
    store_eq _ hin]
  refine gives_some ⟨by simp, ?_, fun k hk => ?_, ?_⟩
  · rw [octetAt_set _ hin, if_neg (by omega)]
  · refine (congrFun hset k).trans (Function.update_of_ne ?_ _ _)
    omega
  · funext p
    rw [pixelAt, writeAll_cons, writeAll_nil]
    by_cases hp : p.1 < s ∧ p.2 < s
    · rw [if_pos hp]
      refine (congrFun hset _).trans ?_
      rw [Function.update_apply, Function.update_apply, pixelAt, if_pos hp]
      by_cases heq : p = (x, y)
      · rw [if_pos heq, if_pos (by rw [heq])]
      · rw [if_neg heq, if_neg]
        intro hidx
        obtain ⟨h1, h2⟩ := index_inj hp.1 hx hidx
        exact heq (Prod.ext h1 h2)
    · rw [if_neg hp, Function.update_of_ne, pixelAt, if_neg hp]
      rintro rfl
      exact hp ⟨hx, hy⟩

/-- Nothing is set outside of the symbol. -/
theorem setModuleBounded_gives {s : Nat} {q : Bytes} (h : IsSymbol s q) (x y : Int) (c : Bool) :
    Gives (setModuleBounded q x y c) fun q' => Drawn s q q'
      (if 0 ≤ x ∧ x < s ∧ 0 ≤ y ∧ y < s then [((x.toNat, y.toNat), c)] else []) := by
  rw [setModuleBounded, load_bind h.pos, h.toNat_size]
  by_cases hp : 0 ≤ x ∧ x < s ∧ 0 ≤ y ∧ y < s
  · rw [if_pos hp, if_pos hp]
    exact setModule_gives h (by omega) (by omega) c
  · rw [if_neg hp, if_neg hp]
    exact gives_some (Drawn.refl s q)

/-- A loop draws what its rounds draw, one after the other. -/
theorem drawn_loop {s n : Nat} {body : Nat → Bytes → Option Bytes}
    {ws : Nat → List ((Nat × Nat) × Bool)} {q : Bytes} (h : IsSymbol s q)
    (hbody : ∀ i < n, ∀ q, IsSymbol s q → Gives (body i q) fun q' => Drawn s q q' (ws i)) :
    Gives (loop n body q) fun q' => Drawn s q q' ((List.range n).flatMap ws) := by
  refine loop_gives (fun k q' => Drawn s q q' ((List.range k).flatMap ws)) (Drawn.refl s q) ?_
  intro k hk q' hq'
  refine (hbody k hk q' (h.of_drawn hq')).mono fun q'' hq'' => ?_
  rw [List.range_succ, List.flatMap_append, List.flatMap_singleton]
  exact hq'.trans hq''

theorem drawn_bind {s : Nat} {q : Bytes} {m : Option Bytes} {k : Bytes → Option Bytes}
    {ws ws' : List ((Nat × Nat) × Bool)} (h : IsSymbol s q)
    (hm : Gives m fun q' => Drawn s q q' ws)
    (hk : ∀ q', IsSymbol s q' → Gives (k q') fun q'' => Drawn s q' q'' ws') :
    Gives (m >>= k) fun q'' => Drawn s q q'' (ws ++ ws') :=
  hm.bind fun q' hq' => (hk q' (h.of_drawn hq')).mono fun _ hq'' => hq'.trans hq''

theorem getSize_eq {s : Nat} {q : Bytes} (h : IsSymbol s q) : getSize q = some s := by
  rw [getSize, load_bind h.pos, h.toNat_size, assert_bind ⟨h.le_size, h.size_le⟩]
  rfl

end Thor
