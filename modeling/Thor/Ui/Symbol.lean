import Thor.Ui.Encode

/-!
# What the encoder draws (ui/qr_generator.c)

The symbol of a call as a function of its modules: version, level, mask and codewords decide
every module.

- `symbol`: the modules. `Shows s q q' f`: `q'` is the array `q` with the modules `f`.
- `chooseMask_gives`: the automatic mask is the first one with the least penalty, and the
  loop over the masks leaves no trace but in the modules of the format.
- `drawSymbol_gives`: what is drawn is `symbol`, at the mask of the call or the chosen one.
-/

namespace Thor

open CLib

/-- The modules before mask and format. -/
def unmasked (version : Nat) (code : Bytes) : Nat × Nat → Bool :=
  writeAll (writeAll (fun p => decide (IsFunction version p))
    (codewordWrites (fun p => decide (IsFunction version p)) (zigzag (version * 4 + 17)) code
      (rawDataModules version / 8))) (whiteWrites version)

/-- Modules under a mask, with the format that says so. -/
def finished (version : Nat) (ecl : Ecc) (f : Nat × Nat → Bool) (mask : Nat) : Nat × Nat → Bool :=
  writeAll (masked (version * 4 + 17) (fun p => decide (IsFunction version p)) mask f)
    (formatWrites (version * 4 + 17) (formatWord ecl mask))

/-- The modules of a symbol. -/
def symbol (version : Nat) (ecl : Ecc) (mask : Nat) (code : Bytes) : Nat × Nat → Bool :=
  finished version ecl (unmasked version code) mask

/-- `q'` is `q` with other modules. -/
def Shows (s : Nat) (q q' : Bytes) (f : Nat × Nat → Bool) : Prop :=
  (∃ ws, Drawn s q q' ws) ∧ pixelAt s q' = f

theorem Drawn.shows {s : Nat} {q q' q'' : Bytes} {f : Nat × Nat → Bool}
    {ws : List ((Nat × Nat) × Bool)} (h : Shows s q q' f) (hd : Drawn s q' q'' ws) :
    Shows s q q'' (writeAll f ws) := by
  obtain ⟨⟨ws', hd'⟩, hf⟩ := h
  exact ⟨⟨ws' ++ ws, hd'.trans hd⟩, by rw [hd.pixels_eq, hf]⟩

theorem IsSymbol.of_shows {s : Nat} {q q' : Bytes} {f : Nat × Nat → Bool} (h : IsSymbol s q)
    (hs : Shows s q q' f) : IsSymbol s q' := by
  obtain ⟨⟨ws, hd⟩, -⟩ := hs
  exact h.of_drawn hd

/-- Two runs that show the same leave the same array. -/
theorem Shows.unique {s : Nat} {q q₁ q₂ : Bytes} {f : Nat × Nat → Bool} (h₁ : Shows s q q₁ f)
    (h₂ : Shows s q q₂ f) : q₁ = q₂ := by
  obtain ⟨⟨ws₁, hd₁⟩, hf₁⟩ := h₁
  obtain ⟨⟨ws₂, hd₂⟩, hf₂⟩ := h₂
  exact eq_of_pixels hd₁ hd₂ (hf₁.trans hf₂.symm)

/-! ## Mask and format -/

/-- The format is drawn at the same modules, whatever it says. -/
theorem formatPlaces_same {s bits : Nat} (bits' : Nat) {p : Nat × Nat}
    (h : ∀ w ∈ formatWrites s bits, w.1 ≠ p) : ∀ w ∈ formatWrites s bits', w.1 ≠ p := by
  intro w hw
  rcases mem_formatWrites.1 hw with ⟨i, hi, rfl⟩ | ⟨i, hi, rfl⟩ | rfl
  · exact h (formatPlace i, getBit bits i) (mem_formatWrites.2 (.inl ⟨i, hi, rfl⟩))
  · exact h (formatPlaceOther s i, getBit bits i) (mem_formatWrites.2 (.inr (.inl ⟨i, hi, rfl⟩)))
  · exact h ((8, s - 8), true) (mem_formatWrites.2 (.inr (.inr rfl)))

/-- Modules that are equal but for those of the format. -/
def EqualButFormat (s : Nat) (f g : Nat × Nat → Bool) : Prop :=
  ∀ p, (∀ w ∈ formatWrites s 0, w.1 ≠ p) → f p = g p

/-- The format covers what was different before it. -/
theorem EqualButFormat.finished_eq {version : Nat} {f g : Nat × Nat → Bool}
    (h : EqualButFormat (version * 4 + 17) f g) (ecl : Ecc) (mask : Nat) :
    finished version ecl f mask = finished version ecl g mask := by
  refine writeAll_congr fun p hp => ?_
  have hfg := h p (formatPlaces_same 0 hp)
  rw [masked, masked, hfg]

/-- A mask that is taken back leaves the modules as they were, but for the format. -/
theorem equalButFormat_taken_back {version : Nat} (ecl : Ecc) (f : Nat × Nat → Bool)
    (mask : Nat) :
    EqualButFormat (version * 4 + 17) (masked (version * 4 + 17)
      (fun p => decide (IsFunction version p)) mask (finished version ecl f mask)) f := by
  intro p hp
  have hsame : finished version ecl f mask p =
      masked (version * 4 + 17) (fun p => decide (IsFunction version p)) mask f p :=
    writeAll_of_notMem (formatPlaces_same _ hp)
  have htwice := congrFun (masked_masked (version * 4 + 17)
    (fun p => decide (IsFunction version p)) mask f) p
  rw [masked] at htwice ⊢
  rw [hsame]
  exact htwice

section

variable {version : Nat} {q fm : Bytes} {f : Nat × Nat → Bool}

/-- The array of the function modules, as the encoder has it in its second buffer. -/
def IsFunctionMap (version : Nat) (fm : Bytes) : Prop :=
  IsSymbol (version * 4 + 17) fm ∧
    pixelAt (version * 4 + 17) fm = fun p => decide (IsFunction version p)

theorem applyMask_shows (hfm : IsFunctionMap version fm) (hq : IsSymbol (version * 4 + 17) q)
    {mask : Nat} (hmask : mask ≤ 7) {q' : Bytes} (h : Shows (version * 4 + 17) q q' f) :
    Gives (applyMask fm q' mask) fun q'' => Shows (version * 4 + 17) q q''
      (masked (version * 4 + 17) (fun p => decide (IsFunction version p)) mask f) := by
  refine (applyMask_gives hmask hfm.1 (hq.of_shows h)).mono fun q'' hd => ?_
  have hshows := Drawn.shows h hd
  rw [h.2, writeAll_maskWrites, hfm.2] at hshows
  exact hshows

theorem drawFormatBits_shows (hq : IsSymbol (version * 4 + 17) q) (ecl : Ecc) {mask : Nat}
    (hmask : mask ≤ 7) {q' : Bytes} (h : Shows (version * 4 + 17) q q' f) :
    Gives (drawFormatBits ecl mask q') fun q'' => Shows (version * 4 + 17) q q''
      (writeAll f (formatWrites (version * 4 + 17) (formatWord ecl mask))) :=
  (drawFormatBits_gives ecl hmask (hq.of_shows h)).mono fun _ hd => Drawn.shows h hd

/-- The first index below `n` where a function is least. -/
def LeastBelow (penalty : Nat → Int) (n m : Nat) : Prop :=
  m < n ∧ (∀ m' < n, penalty m ≤ penalty m') ∧ ∀ m' < m, penalty m < penalty m'

/-- The next index takes over when it is strictly lower. -/
theorem LeastBelow.succ {penalty : Nat → Int} {n m : Nat} (h : LeastBelow penalty n m) :
    LeastBelow penalty (n + 1) (if penalty n < penalty m then n else m) := by
  obtain ⟨hm, hall, hfirst⟩ := h
  split
  · next hlt =>
    refine ⟨Nat.lt_succ_self n, fun m' hm' => ?_, fun m' hm' => ?_⟩
    · by_cases heq : m' = n
      · rw [heq]
      · have := hall m' (by omega)
        omega
    · have := hall m' hm'
      omega
  · next hle =>
    refine ⟨by omega, fun m' hm' => ?_, hfirst⟩
    by_cases heq : m' = n
    · rw [heq]
      omega
    · exact hall m' (by omega)

/-- The rate of a mask. -/
def maskPenalty (version : Nat) (ecl : Ecc) (f : Nat × Nat → Bool) (mask : Nat) : Int :=
  penaltyOf (version * 4 + 17) (finished version ecl f mask)

/-- The state of the search in front of mask `i`. -/
structure Searched (version : Nat) (ecl : Ecc) (f : Nat × Nat → Bool) (q : Bytes) (i : Nat)
    (s : MaskSearch) : Prop where
  shows : ∃ g, Shows (version * 4 + 17) q s.qrcode g ∧ EqualButFormat (version * 4 + 17) g f
  best : (i = 0 ∧ s.minPenalty = longMax) ∨ ∃ m, s.mask = .pattern m ∧
    s.minPenalty = maskPenalty version ecl f m ∧ LeastBelow (maskPenalty version ecl f) i m

theorem tryMask_gives (hv : IsVersion version) (hfm : IsFunctionMap version fm)
    (hq : IsSymbol (version * 4 + 17) q) (ecl : Ecc) {i : Nat} (hi : i ≤ 7) {s : MaskSearch}
    (h : Searched version ecl f q i s) :
    Gives (tryMask ecl fm i s) (Searched version ecl f q (i + 1)) := by
  have hside := isVersion_side hv
  obtain ⟨⟨g, hg, hgf⟩, hbest⟩ := h
  rw [tryMask]
  refine (applyMask_shows hfm hq hi hg).bind fun q1 h1 => ?_
  refine (drawFormatBits_shows hq ecl hi h1).bind fun q2 h2 => ?_
  have hfin : writeAll (masked (version * 4 + 17) (fun p => decide (IsFunction version p)) i g)
      (formatWrites (version * 4 + 17) (formatWord ecl i)) = finished version ecl f i :=
    hgf.finished_eq ecl i
  rw [hfin] at h2
  rw [getPenaltyScore_eq (hq.of_shows h2), h2.2, some_bind]
  refine (applyMask_shows hfm hq hi h2).bind fun q3 h3 => gives_some ⟨?_, .inr ?_⟩
  · exact ⟨_, h3, equalButFormat_taken_back ecl f i⟩
  · show ∃ m, (if maskPenalty version ecl f i < s.minPenalty then _ else _ : Mask × Int).1 = _ ∧
      (if maskPenalty version ecl f i < s.minPenalty then _ else _ : Mask × Int).2 = _ ∧ _
    rcases hbest with ⟨rfl, hmin⟩ | ⟨m, hmask, hmin, hleast⟩
    · -- the first mask is taken, since any rate is below the bound
      have hlt := penaltyOf_lt hside.2 (by omega) (finished version ecl f 0)
      have hfirst : maskPenalty version ecl f 0 < s.minPenalty := by
        rw [hmin, maskPenalty, longMax]
        omega
      rw [if_pos hfirst]
      refine ⟨0, rfl, rfl, Nat.zero_lt_one, fun m' hm' => ?_, fun m' hm' => by omega⟩
      rw [Nat.lt_one_iff.1 hm']
    · have hnext := hleast.succ
      rw [hmin, hmask]
      split
      · next hlt =>
        rw [if_pos hlt] at hnext
        exact ⟨i, rfl, rfl, hnext⟩
      · next hle =>
        rw [if_neg hle] at hnext
        exact ⟨m, rfl, rfl, hnext⟩

/-- The search ends with the first of the masks that have the least penalty. -/
theorem chooseMask_gives (hv : IsVersion version) (hfm : IsFunctionMap version fm)
    (hq : IsSymbol (version * 4 + 17) q) (ecl : Ecc) :
    Gives (chooseMask ecl fm q) fun r => ∃ m g, r.1 = .pattern m ∧
      LeastBelow (maskPenalty version ecl (pixelAt (version * 4 + 17) q)) 8 m ∧
      Shows (version * 4 + 17) q r.2 g ∧
      EqualButFormat (version * 4 + 17) g (pixelAt (version * 4 + 17) q) := by
  have hrun : Gives (loop 8 (tryMask ecl fm) ⟨.auto, longMax, q⟩)
      (Searched version ecl (pixelAt (version * 4 + 17) q) q 8) := by
    refine loop_gives _ ?_ fun i hi s hs => tryMask_gives hv hfm hq ecl (by omega) hs
    exact ⟨⟨_, ⟨⟨[], Drawn.refl _ q⟩, rfl⟩, fun _ _ => rfl⟩, .inl ⟨rfl, rfl⟩⟩
  rw [chooseMask]
  refine hrun.bind fun s hs => gives_some ?_
  obtain ⟨⟨g, hg, hgf⟩, ⟨h0, -⟩ | ⟨m, hmask, -, hleast⟩⟩ := hs
  · exact absurd h0 (by decide)
  · exact ⟨m, g, hmask, hleast, hg, hgf⟩

/-- The mask that a call ends with: its own, or the first one of least penalty. -/
def TakesMask (version : Nat) (ecl : Ecc) (f : Nat × Nat → Bool) (mask : Mask) (m : Nat) : Prop :=
  mask = .pattern m ∨ mask = .auto ∧ LeastBelow (maskPenalty version ecl f) 8 m

theorem finishSymbol_gives (hv : IsVersion version) (hfm : IsFunctionMap version fm)
    (hq : IsSymbol (version * 4 + 17) q) (ecl : Ecc) (mask : Mask) (hmask : mask.Valid) :
    Gives (finishSymbol ecl mask fm q) fun q' => ∃ m ≤ 7,
      TakesMask version ecl (pixelAt (version * 4 + 17) q) mask m ∧
      Shows (version * 4 + 17) q q'
        (finished version ecl (pixelAt (version * 4 + 17) q) m) := by
  have hfinish : ∀ {m q1 g}, m ≤ 7 → Shows (version * 4 + 17) q q1 g →
      EqualButFormat (version * 4 + 17) g (pixelAt (version * 4 + 17) q) →
      Gives (applyMask fm q1 m >>= drawFormatBits ecl m) fun q' => Shows (version * 4 + 17) q q'
        (finished version ecl (pixelAt (version * 4 + 17) q) m) := by
    intro m q1 g hm hg hgq
    refine (applyMask_shows hfm hq hm hg).bind fun q2 h2 => ?_
    refine (drawFormatBits_shows hq ecl hm h2).mono fun q3 h3 => ?_
    rw [← hgq.finished_eq ecl m]
    exact h3
  cases mask with
  | pattern m =>
    rw [finishSymbol, if_neg (by simp), some_bind]
    have hm : m ≤ 7 := hmask
    show Gives (assert (m ≤ 7) >>= _) _
    rw [assert_bind hm]
    have hself : Shows (version * 4 + 17) q q (pixelAt (version * 4 + 17) q) :=
      ⟨⟨[], Drawn.refl _ q⟩, rfl⟩
    exact (hfinish hm hself fun _ _ => rfl).mono fun q' hq' => ⟨m, hm, .inl rfl, hq'⟩
  | auto =>
    rw [finishSymbol, if_pos rfl]
    refine (chooseMask_gives hv hfm hq ecl).bind ?_
    rintro ⟨mask, q1⟩ ⟨m, g, hm, hleast, hg, hgq⟩
    simp only at hm hg
    have hm7 : m ≤ 7 := by
      have := hleast.1
      omega
    rw [hm]
    show Gives (assert (m ≤ 7) >>= _) _
    rw [assert_bind hm7]
    exact (hfinish hm7 hg hgq).mono fun q' hq' => ⟨m, hm7, .inr ⟨rfl, hleast⟩, hq'⟩

end

/-! ## The drawing -/

/-- The codewords of a symbol whose data codewords are given. -/
def CodewordsOf (version : Nat) (ecl : Ecc) (data code : Bytes) : Prop :=
  rawDataModules version / 8 ≤ code.size ∧ ∃ before : Bytes, octetAt code =
    writeAll (octetAt before) ((List.range (numBlocks ecl version)).flatMap
      (blockWrites ecl version data))

/-- Equal data make equal codewords. -/
theorem CodewordsOf.same {version : Nat} (hv : IsVersion version) {ecl : Ecc}
    {data data' code code' : Bytes} (h : CodewordsOf version ecl data code)
    (h' : CodewordsOf version ecl data' code')
    (hdata : slice data 0 (dataCodewords version ecl) = slice data' 0 (dataCodewords version ecl))
    {k : Nat} (hk : k < rawDataModules version / 8) : octetAt code k = octetAt code' k := by
  obtain ⟨-, before, hwrites⟩ := h
  obtain ⟨-, before', hwrites'⟩ := h'
  refine interleaved_same hv (fun j hj => ?_) hwrites hwrites' hk
  have hbyte := congrArg (fun l => l[j]?) hdata
  rw [getElem?_slice, getElem?_slice, if_pos hj, if_pos hj, Nat.zero_add] at hbyte
  exact Option.some.inj hbyte

/-- Only the codewords of the version are drawn. -/
theorem unmasked_congr {version : Nat} {code code' : Bytes}
    (h : ∀ k < rawDataModules version / 8, octetAt code k = octetAt code' k) :
    unmasked version code = unmasked version code' := by
  have hwrites : ∀ places, codewordWrites (fun p => decide (IsFunction version p)) places code
      (rawDataModules version / 8) = codewordWrites (fun p => decide (IsFunction version p)) places
        code' (rawDataModules version / 8) := by
    intro places
    refine List.ext_getElem? fun i => ?_
    rw [codewordWrites, codewordWrites, List.getElem?_mapIdx, List.getElem?_mapIdx]
    by_cases hi : i < rawDataModules version / 8 * 8
    · rw [bitAt, bitAt, h (i / 8) (by omega)]
    · rw [List.getElem?_eq_none (by rw [List.length_take]; omega)]
      rfl
  rw [unmasked, unmasked, hwrites]

theorem raw_le_buffer {version : Nat} (hv : IsVersion version) :
    rawDataModules version / 8 ≤ bufferLenForVersion version := by
  have hraw := (rawDataModules_bounds hv).2.2
  rw [bufferLenForVersion]
  omega

/-- Everything but mask and format: the modules, and the array of the function modules. -/
theorem drawUnmasked_gives {version : Nat} (hv : IsVersion version) (ecl : Ecc) (temp : Bytes)
    {q : Bytes} (htemp : bufferLenForVersion version ≤ temp.size) (hq : bufferLenForVersion version ≤ q.size) :
    Gives (drawUnmasked version ecl temp q) fun r =>
      IsFunctionMap version r.1 ∧ IsSymbol (version * 4 + 17) r.2 ∧ r.1.size = temp.size ∧
        r.2.size = q.size ∧ ∃ code, CodewordsOf version ecl q code ∧
          pixelAt (version * 4 + 17) r.2 = unmasked version code := by
  have hraw := raw_le_buffer hv
  have hside := isVersion_side hv
  rw [drawUnmasked]
  refine (addEccAndInterleave_gives hv ecl (by omega : _ ≤ q.size) (by omega)).bind ?_
  rintro ⟨data, code⟩ ⟨hdata, hcode, hwrites⟩
  simp only at hdata hcode hwrites ⊢
  refine (initializeFunctionModules_gives hv (by omega)).bind ?_
  rintro q1 ⟨hq1, hs1, hpix⟩
  have hfun : pixelAt (version * 4 + 17) q1 = fun p => decide (IsFunction version p) := funext hpix
  have hplaces : (whiteOf (pixelAt (version * 4 + 17) q1) (zigzag (version * 4 + 17))).length =
      rawDataModules version := by
    rw [hfun]
    exact length_dataPlaces hv
  rw [getNumRawDataModules_eq hv, some_bind]
  refine (drawCodewords_gives hq1 (by omega) (by omega : rawDataModules version / 8 ≤ code.size)
    (by omega)).bind ?_
  intro q2 hq2
  have hsym2 := hq1.of_drawn hq2
  refine (drawWhiteFunctionModules_gives hv hsym2).bind fun q3 hq3 => ?_
  refine (initializeFunctionModules_gives hv (q := code) (by omega)).bind ?_
  rintro fm ⟨hfm, hsfm, hpixfm⟩
  refine gives_some ⟨⟨hfm, funext hpixfm⟩, hsym2.of_drawn hq3, hsfm.trans hcode, ?_, code,
    ⟨by omega, temp, hwrites⟩, ?_⟩
  · exact hq3.size_eq.trans (hq2.size_eq.trans (hs1.trans hdata))
  · show pixelAt _ q3 = _
    rw [hq3.pixels_eq, hq2.pixels_eq, hfun]
    rfl

end Thor
