import Thor.Ui.Patterns

/-!
# Codewords on a symbol (ui/qr_generator.c)

The modules that are not function modules take the bits of the codewords, pair of columns
after pair of columns from the right, up and down in turns; then a mask inverts some of them.

- `drawCodewords`, `applyMask`: the loops of the source.
- `zigzag s`: the modules in the order of `drawCodewords`. It comes to every module once
  (`nodup_zigzag`, `mem_zigzag`), but for the timing column.
- `drawCodewords_gives`: bit `i` of the codewords goes to the `i`-th module of `dataPlaces`.
- `applyMask_gives`: an exclusive or with the mask, outside of the function modules.
-/

namespace Thor

open CLib

/-- One module, with `s.1` for the index of the next bit. -/
def drawModule (data : Bytes) (dataLen : Nat) (s : Nat × Bytes) (p : Nat × Nat) :
    Option (Nat × Bytes) := do
  let occupied ← getModule s.2 p.1 p.2
  if !occupied ∧ s.1 < dataLen * 8 then do
    let byte ← load data (s.1 >>> 3)
    let black := getBit byte.toNat (7 - (s.1 &&& 7))
    let qrcode ← setModule s.2 p.1 p.2 black
    return (s.1 + 1, qrcode)
  else return s

/-- The coordinates in the inner loops of `drawCodewords`. -/
def zigzagPlace (qrsize right vert j : Nat) : Nat × Nat :=
  let x := right - j
  let upward := (right + 1) &&& 2 = 0
  (x, if upward then qrsize - 1 - vert else vert)

/-- The loop over `right`, which ends below 1; `rounds` is more than it needs. -/
def drawColumns (data : Bytes) (dataLen qrsize : Nat) :
    Nat → Nat → Nat × Bytes → Option (Nat × Bytes)
  | 0, _, _ => none
  | rounds + 1, right, s =>
    if right ≥ 1 then do
      let right := if right = 6 then 5 else right
      let s ← loop qrsize (fun vert s =>
        loop 2 (fun j s => drawModule data dataLen s (zigzagPlace qrsize right vert j)) s) s
      drawColumns data dataLen qrsize rounds (right - 2) s
    else some s

def drawCodewords (data : Bytes) (dataLen : Nat) (qrcode : Bytes) : Option Bytes := do
  let qrsize ← getSize qrcode
  let s ← drawColumns data dataLen qrsize qrsize (qrsize - 1) (0, qrcode)
  assert (s.1 = dataLen * 8)
  return s.2

/-- The `switch` of `applyMask`. -/
def maskInverts (mask x y : Nat) : Bool :=
  match mask with
  | 0 => (x + y) % 2 == 0
  | 1 => y % 2 == 0
  | 2 => x % 3 == 0
  | 3 => (x + y) % 3 == 0
  | 4 => (x / 3 + y / 2) % 2 == 0
  | 5 => x * y % 2 + x * y % 3 == 0
  | 6 => (x * y % 2 + x * y % 3) % 2 == 0
  | _ => ((x + y) % 2 + x * y % 3) % 2 == 0

/-- One module under the mask. -/
def maskModule (functionModules : Bytes) (mask : Nat) (qrcode : Bytes) (p : Nat × Nat) :
    Option Bytes := do
  let function ← getModule functionModules p.1 p.2
  if function then return qrcode
  else do
    let invert := maskInverts mask p.1 p.2
    let val ← getModule qrcode p.1 p.2
    setModule qrcode p.1 p.2 (val ^^ invert)

def applyMask (functionModules : Bytes) (qrcode : Bytes) (mask : Nat) : Option Bytes := do
  assert (mask ≤ 7)
  let qrsize ← getSize qrcode
  loop qrsize (fun y qrcode =>
    loop qrsize (fun x qrcode => maskModule functionModules mask qrcode (x, y)) qrcode) qrcode

/-! ## The scan -/

/-- The right one of the columns of a round. -/
def rightColumn (s p : Nat) : Nat := if s - 1 - 2 * p ≤ 6 then s - 2 - 2 * p else s - 1 - 2 * p

/-- The modules of two columns. -/
def columnPlaces (s right : Nat) : List (Nat × Nat) :=
  (List.range s).flatMap fun vert => (List.range 2).map fun j => zigzagPlace s right vert j

/-- The modules in the order of `drawCodewords`. -/
def zigzag (s : Nat) : List (Nat × Nat) :=
  (List.range ((s - 1) / 2)).flatMap fun p => columnPlaces s (rightColumn s p)

theorem mem_columnPlaces {s right : Nat} {p : Nat × Nat} (hr : 1 ≤ right) :
    p ∈ columnPlaces s right ↔ p.2 < s ∧ (p.1 = right ∨ p.1 + 1 = right) := by
  obtain ⟨x, y⟩ := p
  simp only [columnPlaces, List.mem_flatMap, List.mem_map, List.mem_range, zigzagPlace,
    Prod.mk.injEq]
  constructor
  · rintro ⟨vert, hvert, j, hj, rfl, rfl⟩
    refine ⟨?_, by omega⟩
    split <;> omega
  · rintro ⟨hy, hx⟩
    refine ⟨if (right + 1) &&& 2 = 0 then s - 1 - y else y, ?_, right - x, by omega, by omega, ?_⟩
    · split <;> omega
    · split <;> omega

theorem nodup_columnPlaces {s right : Nat} (hr : 1 ≤ right) : (columnPlaces s right).Nodup := by
  refine nodup_flatMap_range (fun vert _ => ?_) fun vert hvert vert' hvert' p hp hp' => ?_
  · refine List.Nodup.map_on (fun j hj j' hj' heq => ?_) List.nodup_range
    rw [List.mem_range] at hj hj'
    simp only [zigzagPlace, Prod.mk.injEq] at heq
    omega
  · obtain ⟨j, -, rfl⟩ := List.mem_map.1 hp
    obtain ⟨j', -, heq⟩ := List.mem_map.1 hp'
    simp only [zigzagPlace, Prod.mk.injEq] at heq
    have hy := heq.2
    split at hy <;> omega

theorem mem_zigzag {s : Nat} (hodd : s % 2 = 1) (hs : 7 ≤ s) {p : Nat × Nat} :
    p ∈ zigzag s ↔ p.1 < s ∧ p.2 < s ∧ p.1 ≠ 6 := by
  simp only [zigzag, List.mem_flatMap, List.mem_range]
  constructor
  · rintro ⟨k, hk, hp⟩
    rw [mem_columnPlaces (by rw [rightColumn]; split <;> omega)] at hp
    simp only [rightColumn] at hp
    split at hp <;> omega
  · rintro ⟨hx, hy, h6⟩
    by_cases hlow : p.1 < 6
    · refine ⟨(s - 2 - p.1) / 2, by omega, ?_⟩
      rw [mem_columnPlaces (by rw [rightColumn]; split <;> omega)]
      simp only [rightColumn]
      split <;> omega
    · refine ⟨(s - 1 - p.1) / 2, by omega, ?_⟩
      rw [mem_columnPlaces (by rw [rightColumn]; split <;> omega)]
      simp only [rightColumn]
      split <;> omega

theorem nodup_zigzag {s : Nat} (hodd : s % 2 = 1) (hs : 7 ≤ s) : (zigzag s).Nodup := by
  have hright : ∀ k < (s - 1) / 2, 1 ≤ rightColumn s k := by
    intro k hk
    rw [rightColumn]
    split <;> omega
  refine nodup_flatMap_range (fun k hk => nodup_columnPlaces (hright k hk)) ?_
  intro k hk k' hk' p hp hp'
  rw [mem_columnPlaces (hright k hk)] at hp
  rw [mem_columnPlaces (hright k' hk')] at hp'
  simp only [rightColumn] at hp hp'
  split at hp <;> split at hp' <;> omega

/-- The loop over `right` visits the modules of the rounds that remain. -/
theorem drawColumns_eq {data : Bytes} {dataLen s : Nat} (hodd : s % 2 = 1) (hs : 7 ≤ s) (k : Nat) :
    ∀ p rounds q, p + k = (s - 1) / 2 → k < rounds →
      drawColumns data dataLen s rounds (if s - 1 - 2 * p = 6 then 6 else rightColumn s p) q =
        ((List.range' p k).flatMap fun p => columnPlaces s (rightColumn s p)).foldlM
          (drawModule data dataLen) q := by
  induction k with
  | zero =>
    intro p rounds q hp hrounds
    obtain ⟨rounds, rfl⟩ : ∃ n, rounds = n + 1 := ⟨rounds - 1, by omega⟩
    have hend : rightColumn s p = 0 := by
      rw [rightColumn, if_pos (by omega)]
      omega
    rw [if_neg (by omega), hend]
    rfl
  | succ k ih =>
    intro p rounds q hp hrounds
    obtain ⟨rounds, rfl⟩ : ∃ n, rounds = n + 1 := ⟨rounds - 1, by omega⟩
    -- column 6 is stepped over
    have hskip : (if (if s - 1 - 2 * p = 6 then 6 else rightColumn s p) = 6 then 5
        else (if s - 1 - 2 * p = 6 then 6 else rightColumn s p)) = rightColumn s p := by
      rw [rightColumn]
      split_ifs <;> omega
    have hnext : rightColumn s p - 2 =
        if s - 1 - 2 * (p + 1) = 6 then 6 else rightColumn s (p + 1) := by
      rw [rightColumn, rightColumn]
      split_ifs <;> omega
    have hpair : ∀ q, loop s (fun vert q => loop 2 (fun j q =>
        drawModule data dataLen q (zigzagPlace s (rightColumn s p) vert j)) q) q =
          (columnPlaces s (rightColumn s p)).foldlM (drawModule data dataLen) q := by
      intro q
      rw [columnPlaces, ← loop_foldlM]
      exact loop_congr fun vert _ q => loop_visits ..
    rw [drawColumns, if_pos (by rw [rightColumn]; split_ifs <;> omega)]
    simp only [hskip, hpair]
    rw [List.range'_succ, List.flatMap_cons, List.foldlM_append, hnext]
    congr 1
    funext q
    exact ih (p + 1) rounds q (by omega) (by omega)

/-! ## Where the codewords go -/

/-- The white modules of a list of places. -/
def whiteOf (f : Nat × Nat → Bool) (places : List (Nat × Nat)) : List (Nat × Nat) :=
  places.filter fun p => !f p

/-- The codewords on the white modules, one bit for each as long as there are bits. -/
def codewordWrites (f : Nat × Nat → Bool) (places : List (Nat × Nat)) (data : Bytes)
    (dataLen : Nat) : List ((Nat × Nat) × Bool) :=
  ((whiteOf f places).take (dataLen * 8)).mapIdx fun i p => (p, bitAt data i)

/-- The next place, if it is white, takes the next bit, if there is one. -/
theorem codewordWrites_concat (f : Nat × Nat → Bool) (seen : List (Nat × Nat)) (p : Nat × Nat)
    (data : Bytes) (dataLen : Nat) :
    codewordWrites f (seen ++ [p]) data dataLen =
      codewordWrites f seen data dataLen ++
        if f p = false ∧ (codewordWrites f seen data dataLen).length < dataLen * 8 then
          [(p, bitAt data (codewordWrites f seen data dataLen).length)] else [] := by
  have hlen : (codewordWrites f seen data dataLen).length =
      min (dataLen * 8) (whiteOf f seen).length := by
    simp [codewordWrites]
  cases hp : f p with
  | true => simp [codewordWrites, whiteOf, hp]
  | false =>
    have hwhite : whiteOf f (seen ++ [p]) = whiteOf f seen ++ [p] := by simp [whiteOf, hp]
    by_cases hroom : (whiteOf f seen).length < dataLen * 8
    · rw [if_pos ⟨rfl, by omega⟩, hlen, Nat.min_eq_right (by omega), codewordWrites, hwhite,
        codewordWrites, List.take_of_length_le (by simp; omega), List.mapIdx_concat,
        List.take_of_length_le (by omega)]
    · rw [if_neg (by omega), List.append_nil, codewordWrites, hwhite, codewordWrites,
        List.take_append_of_le_length (by omega)]

theorem map_fst_codewordWrites (f : Nat × Nat → Bool) (places : List (Nat × Nat)) (data : Bytes)
    (dataLen : Nat) :
    (codewordWrites f places data dataLen).map Prod.fst =
      (whiteOf f places).take (dataLen * 8) := by
  refine List.ext_getElem? fun k => ?_
  rw [codewordWrites, List.getElem?_map, List.getElem?_mapIdx]
  cases ((whiteOf f places).take (dataLen * 8))[k]? <;> rfl

theorem mem_of_mem_codewordWrites {f : Nat × Nat → Bool} {places : List (Nat × Nat)} {data : Bytes}
    {dataLen : Nat} {w : (Nat × Nat) × Bool} (hw : w ∈ codewordWrites f places data dataLen) :
    w.1 ∈ places ∧ f w.1 = false := by
  have hfst : w.1 ∈ (whiteOf f places).take (dataLen * 8) := by
    rw [← map_fst_codewordWrites]
    exact List.mem_map_of_mem hw
  simpa [whiteOf] using List.mem_of_mem_take hfst

theorem drawModule_gives {data q : Bytes} {dataLen s : Nat} {seen : List (Nat × Nat)}
    {p : Nat × Nat} (hq : IsSymbol s q) (hdata : dataLen ≤ data.size) (hx : p.1 < s)
    (hy : p.2 < s) (hnew : p ∉ seen) {st : Nat × Bytes}
    (hi : st.1 = (codewordWrites (pixelAt s q) seen data dataLen).length)
    (hd : Drawn s q st.2 (codewordWrites (pixelAt s q) seen data dataLen)) :
    Gives (drawModule data dataLen st p) fun st' =>
      st'.1 = (codewordWrites (pixelAt s q) (seen ++ [p]) data dataLen).length ∧
        Drawn s q st'.2 (codewordWrites (pixelAt s q) (seen ++ [p]) data dataLen) := by
  have hst := hq.of_drawn hd
  -- the module is as it was, since the scan has not been here
  have hsame : pixelAt s st.2 p = pixelAt s q p := by
    rw [hd.pixels_eq]
    refine writeAll_of_notMem fun w hw heq => hnew ?_
    rw [← heq]
    exact (mem_of_mem_codewordWrites hw).1
  rw [drawModule, getModule_eq hst hx hy, some_bind, codewordWrites_concat, ← hi]
  by_cases hdraw : pixelAt s q p = false ∧ st.1 < dataLen * 8
  · rw [if_pos hdraw, if_pos (by rw [hsame]; simpa using hdraw), Nat.shiftRight_eq_div_pow,
      load_bind (by omega)]
    have hbit : getBit (octetAt data (st.1 / 2 ^ 3)).toNat (7 - (st.1 &&& 7)) = bitAt data st.1 := by
      rw [getBit_eq, Nat.and_two_pow_sub_one_eq_mod _ 3]
      rfl
    show Gives (setModule st.2 p.1 p.2 (getBit _ _) >>= fun qrcode => some (st.1 + 1, qrcode)) _
    rw [hbit]
    refine (setModule_gives hst hx hy _).bind fun q' hq' => gives_some ⟨?_, hd.trans hq'⟩
    rw [List.length_append, ← hi]
    rfl
  · rw [if_neg hdraw, if_neg (by rw [hsame]; simpa using hdraw), List.append_nil]
    exact gives_some ⟨hi, hd⟩

/-- Every bit of the codewords goes to the next white module of the scan. -/
theorem drawCodewords_gives {data q : Bytes} {dataLen s : Nat} (hq : IsSymbol s q)
    (hodd : s % 2 = 1) (hdata : dataLen ≤ data.size)
    (hroom : dataLen * 8 ≤ (whiteOf (pixelAt s q) (zigzag s)).length) :
    Gives (drawCodewords data dataLen q) fun q' =>
      Drawn s q q' (codewordWrites (pixelAt s q) (zigzag s) data dataLen) := by
  have h21 := hq.le_size
  have hstart : s - 1 = if s - 1 - 2 * 0 = 6 then 6 else rightColumn s 0 := by
    rw [rightColumn]
    split_ifs <;> omega
  have hscan : drawColumns data dataLen s s (s - 1) (0, q) =
      (zigzag s).foldlM (drawModule data dataLen) (0, q) := by
    conv_lhs => rw [hstart]
    rw [drawColumns_eq hodd (by omega) ((s - 1) / 2) 0 s _ (by omega) (by omega), zigzag,
      List.range_eq_range']
  rw [drawCodewords, getSize_eq hq, some_bind, hscan]
  have hrun : Gives ((zigzag s).foldlM (drawModule data dataLen) (0, q)) fun st =>
      st.1 = (codewordWrites (pixelAt s q) (zigzag s) data dataLen).length ∧
        Drawn s q st.2 (codewordWrites (pixelAt s q) (zigzag s) data dataLen) := foldlM_gives
    (fun seen (st : Nat × Bytes) => st.1 = (codewordWrites (pixelAt s q) seen data dataLen).length ∧
      Drawn s q st.2 (codewordWrites (pixelAt s q) seen data dataLen))
    ⟨by simp [codewordWrites, whiteOf], by simpa [codewordWrites, whiteOf] using Drawn.refl s q⟩
    fun seen p hpre st hst => by
      have hmem := (mem_zigzag hodd (by omega)).1 (hpre.subset (by simp : p ∈ seen ++ [p]))
      have hnodup := (nodup_zigzag hodd (by omega)).sublist hpre.sublist
      rw [List.nodup_append] at hnodup
      exact drawModule_gives hq hdata hmem.1 hmem.2.1
        (fun hseen => hnodup.2.2 p hseen p (by simp) rfl) hst.1 hst.2
  refine hrun.bind ?_
  rintro st ⟨hi, hd⟩
  have hall : st.1 = dataLen * 8 := by
    rw [hi]
    simp [codewordWrites, hroom]
  rw [assert_bind hall]
  exact gives_some hd

/-- The codewords are read back from the white modules of the scan. -/
theorem writeAll_codewords {f : Nat × Nat → Bool} (data : Bytes) {dataLen s k : Nat}
    {p : Nat × Nat} (hodd : s % 2 = 1) (hs : 7 ≤ s) (hk : k < dataLen * 8)
    (hp : (whiteOf f (zigzag s))[k]? = some p) :
    writeAll f (codewordWrites f (zigzag s) data dataLen) p = bitAt data k := by
  refine writeAll_of_nodup (List.mem_iff_getElem?.2 ⟨k, ?_⟩) ?_
  · rw [codewordWrites, List.getElem?_mapIdx, List.getElem?_take_of_lt hk, hp]
    rfl
  · rw [map_fst_codewordWrites]
    exact ((nodup_zigzag hodd hs).filter _).sublist (List.take_sublist _ _)

/-! ## The mask -/

/-- The modules row by row, as `applyMask` comes to them. -/
def rowByRow (s : Nat) : List (Nat × Nat) :=
  (List.range s).flatMap fun y => (List.range s).map fun x => (x, y)

theorem mem_rowByRow {s : Nat} {p : Nat × Nat} : p ∈ rowByRow s ↔ p.1 < s ∧ p.2 < s := by
  obtain ⟨x, y⟩ := p
  simp only [rowByRow, List.mem_flatMap, List.mem_map, List.mem_range, Prod.mk.injEq]
  constructor
  · rintro ⟨y, hy, x, hx, rfl, rfl⟩
    exact ⟨hx, hy⟩
  · rintro ⟨hx, hy⟩
    exact ⟨y, hy, x, hx, rfl, rfl⟩

theorem nodup_rowByRow (s : Nat) : (rowByRow s).Nodup := by
  refine nodup_flatMap_range (fun y _ => ?_) fun y _ y' _ p hp hp' => ?_
  · exact List.Nodup.map_on (fun x _ x' _ heq => (Prod.mk.inj heq).1) List.nodup_range
  · obtain ⟨x, -, rfl⟩ := List.mem_map.1 hp
    obtain ⟨x', -, heq⟩ := List.mem_map.1 hp'
    exact (Prod.mk.inj heq).2.symm

/-- A loop over the rows, and in them over the columns. -/
theorem loop_rowByRow {σ : Type} {s : Nat} (visit : σ → Nat × Nat → Option σ) {st : σ} :
    loop s (fun y st => loop s (fun x st => visit st (x, y)) st) st =
      (rowByRow s).foldlM visit st := by
  rw [rowByRow, ← loop_foldlM]
  exact loop_congr fun y _ q => loop_visits ..

/-- The mask on the modules that are white in `fm`. -/
def maskWrites (fm f : Nat × Nat → Bool) (mask : Nat) (places : List (Nat × Nat)) :
    List ((Nat × Nat) × Bool) :=
  (whiteOf fm places).map fun p => (p, f p ^^ maskInverts mask p.1 p.2)

theorem mem_maskWrites {fm f : Nat × Nat → Bool} {mask : Nat} {places : List (Nat × Nat)}
    {w : (Nat × Nat) × Bool} : w ∈ maskWrites fm f mask places ↔
      w.1 ∈ places ∧ fm w.1 = false ∧ w.2 = (f w.1 ^^ maskInverts mask w.1.1 w.1.2) := by
  obtain ⟨p, c⟩ := w
  simp only [maskWrites, whiteOf, List.mem_map, List.mem_filter, Prod.mk.injEq]
  constructor
  · rintro ⟨p, ⟨hp, hfm⟩, rfl, rfl⟩
    exact ⟨hp, by simpa using hfm, rfl⟩
  · rintro ⟨hp, hfm, rfl⟩
    exact ⟨p, ⟨hp, by simpa using hfm⟩, rfl, rfl⟩

theorem maskModule_gives {fm q q' : Bytes} {mask s : Nat} {seen : List (Nat × Nat)}
    {p : Nat × Nat} (hfm : IsSymbol s fm) (hq : IsSymbol s q) (hx : p.1 < s) (hy : p.2 < s)
    (hnew : p ∉ seen)
    (hd : Drawn s q q' (maskWrites (pixelAt s fm) (pixelAt s q) mask seen)) :
    Gives (maskModule fm mask q' p) fun q'' =>
      Drawn s q q'' (maskWrites (pixelAt s fm) (pixelAt s q) mask (seen ++ [p])) := by
  have hq' := hq.of_drawn hd
  have hsame : pixelAt s q' p = pixelAt s q p := by
    rw [hd.pixels_eq]
    refine writeAll_of_notMem fun w hw heq => hnew ?_
    rw [← heq]
    exact (mem_maskWrites.1 hw).1
  rw [maskModule, getModule_eq hfm hx hy, some_bind]
  cases hp : pixelAt s fm p with
  | true =>
    have hskip : maskWrites (pixelAt s fm) (pixelAt s q) mask (seen ++ [p]) =
        maskWrites (pixelAt s fm) (pixelAt s q) mask seen := by
      simp [maskWrites, whiteOf, hp]
    rw [if_pos rfl, hskip]
    exact gives_some hd
  | false =>
    have hwrite : maskWrites (pixelAt s fm) (pixelAt s q) mask (seen ++ [p]) =
        maskWrites (pixelAt s fm) (pixelAt s q) mask seen ++
          [(p, pixelAt s q p ^^ maskInverts mask p.1 p.2)] := by
      simp [maskWrites, whiteOf, hp]
    rw [if_neg (by decide), getModule_eq hq' hx hy, some_bind, hwrite, hsame]
    exact (setModule_gives hq' hx hy _).mono fun q'' hq'' => hd.trans hq''

theorem applyMask_gives {fm q : Bytes} {mask s : Nat} (hmask : mask ≤ 7) (hfm : IsSymbol s fm)
    (hq : IsSymbol s q) :
    Gives (applyMask fm q mask) fun q' =>
      Drawn s q q' (maskWrites (pixelAt s fm) (pixelAt s q) mask (rowByRow s)) := by
  rw [applyMask, assert_bind hmask, getSize_eq hq, some_bind, loop_rowByRow]
  refine foldlM_gives
    (fun seen q' => Drawn s q q' (maskWrites (pixelAt s fm) (pixelAt s q) mask seen))
    (Drawn.refl s q) fun seen p hpre q' hq' => ?_
  have hmem := mem_rowByRow.1 (hpre.subset (by simp : p ∈ seen ++ [p]))
  have hnodup := (nodup_rowByRow s).sublist hpre.sublist
  rw [List.nodup_append] at hnodup
  exact maskModule_gives hfm hq hmem.1 hmem.2 (fun hseen => hnodup.2.2 p hseen p (by simp) rfl) hq'

/-- A symbol under a mask, by its modules. -/
def masked (s : Nat) (fm : Nat × Nat → Bool) (mask : Nat) (f : Nat × Nat → Bool)
    (p : Nat × Nat) : Bool :=
  if p.1 < s ∧ p.2 < s ∧ fm p = false then f p ^^ maskInverts mask p.1 p.2 else f p

theorem writeAll_maskWrites (s : Nat) (fm : Nat × Nat → Bool) (mask : Nat)
    (f : Nat × Nat → Bool) :
    writeAll f (maskWrites fm f mask (rowByRow s)) = masked s fm mask f := by
  funext p
  by_cases hp : p.1 < s ∧ p.2 < s ∧ fm p = false
  · rw [masked, if_pos hp]
    refine writeAll_of_mem (mem_maskWrites.2 ⟨mem_rowByRow.2 ⟨hp.1, hp.2.1⟩, hp.2.2, rfl⟩) ?_
    intro w hw heq
    rw [(mem_maskWrites.1 hw).2.2, heq]
  · rw [masked, if_neg hp]
    refine writeAll_of_notMem fun w hw heq => hp ?_
    obtain ⟨hin, hfm, -⟩ := mem_maskWrites.1 hw
    rw [heq] at hin hfm
    exact ⟨(mem_rowByRow.1 hin).1, (mem_rowByRow.1 hin).2, hfm⟩

/-- The same mask again undoes it. -/
theorem masked_masked (s : Nat) (fm : Nat × Nat → Bool) (mask : Nat) (f : Nat × Nat → Bool) :
    masked s fm mask (masked s fm mask f) = f := by
  funext p
  by_cases hp : p.1 < s ∧ p.2 < s ∧ fm p = false
  · rw [masked, if_pos hp, masked, if_pos hp, Bool.xor_assoc, Bool.xor_self, Bool.xor_false]
  · rw [masked, if_neg hp, masked, if_neg hp]

end Thor
