import Thor.Ui.Content

/-!
# Reading a symbol that is damaged (ui/qr_generator.c)

The symbols of the source before the reader of `Qr.Reader`, which goes by the standard: from a
picture that differs in no more modules than the error correction is for, it finds what was
encoded, and nothing else.

- `bitRead_symbol`, `received_symbol`, `formatRead_symbol`: what the reader sees of a symbol.
- `correctsTo_unique`, `reads_unique`: it finds no two contents in one picture.
- `reads_iff`, `readsAs_iff`: it finds the message with its padding, and the pieces.
-/

namespace Thor

open CLib

/-! ## The symbol -/

/-- A module for data is neither one of the format nor a function module. -/
theorem bitRead_symbol {version : Nat} (hv : IsVersion version) (ecl : Ecc) {mask : Nat}
    (hmask : mask ≤ 7) {code : Bytes} {i : Nat} (hi : i < rawDataModules version / 8 * 8) :
    Qr.bitRead version mask (symbol version ecl mask code) i = bitAt code i := by
  have hside := isVersion_side hv
  have hlen := length_dataPlaces hv
  have hget : (dataPlaces version)[i]? = some ((dataPlaces version).getD i (0, 0)) := by
    rw [List.getD_eq_getElem _ _ (by omega), List.getElem?_eq_getElem (by omega)]
  obtain ⟨hx, hy, hp⟩ := (mem_dataPlaces hv).1 (List.mem_of_getElem? hget)
  generalize hpi : (dataPlaces version).getD i (0, 0) = p at hget hx hy hp
  -- the layers over the codewords leave the module alone
  have hformat : symbol version ecl mask code p =
      masked (version * 4 + 17) (fun p => decide (IsFunction version p)) mask
        (unmasked version code) p := by
    refine writeAll_of_notMem fun w hw heq => hp ?_
    rw [← heq]
    exact isFunction_of_mem_formatWrites hv hw
  have hwhite : unmasked version code p =
      writeAll (fun p => decide (IsFunction version p))
        (codewordWrites (fun p => decide (IsFunction version p)) (zigzag (version * 4 + 17)) code
          (rawDataModules version / 8)) p := by
    refine writeAll_of_notMem fun w hw heq => hp ?_
    rw [← heq]
    exact isFunction_of_mem_whiteWrites hv hw
  have hcode := writeAll_codewords code (by omega : (version * 4 + 17) % 2 = 1) (by omega) hi hget
  rw [Qr.bitRead, ← dataPlaces_eq hv, hpi, ← maskInverts_eq hmask, hformat, masked,
    if_pos ⟨hx, hy, decide_eq_false hp⟩, hwhite, hcode, Bool.xor_assoc, Bool.xor_self,
    Bool.xor_false]

theorem codewordRead_symbol {version : Nat} (hv : IsVersion version) (ecl : Ecc) {mask : Nat}
    (hmask : mask ≤ 7) {code : Bytes} {k : Nat} (hk : k < rawDataModules version / 8) :
    Qr.codewordRead version mask (symbol version ecl mask code) k = octetAt code k := by
  have hbits : (List.range 8).map (fun j => Qr.bitRead version mask (symbol version ecl mask code)
      (8 * k + j)) = toBits 8 (octetAt code k).toNat := by
    refine List.ext_getElem? fun j => ?_
    rw [List.getElem?_map, getElem?_toBits]
    by_cases hj : j < 8
    · rw [List.getElem?_range hj, Option.map_some, bitRead_symbol hv ecl hmask (by omega),
        if_pos hj, bitAt, show (8 * k + j) / 8 = k by omega,
        show 7 - (8 * k + j) % 8 = 8 - 1 - j by omega]
      rfl
    · rw [List.getElem?_eq_none (by simpa using hj), if_neg hj]
      rfl
  rw [Qr.codewordRead, hbits, ofBits_toBits_of_lt (octetAt code k).isLt, BitVec.ofNat_toNat,
    BitVec.setWidth_eq]

/-- The check codewords of a block. -/
def checkOf (degree : Nat) (block : List Byte) : List Byte := (eccOf degree block).map GF.byte

@[simp] theorem length_checkOf (degree : Nat) (block : List Byte) :
    (checkOf degree block).length = degree := by
  rw [checkOf, List.length_map, length_eccOf]

/-- Every block of a symbol is received as it was sent. -/
theorem received_symbol {version mask : Nat} (hv : IsVersion version) {ecl : Ecc} (hmask : mask ≤ 7)
    {data code : Bytes} (hcode : CodewordsOf version ecl data code) {i : Nat}
    (hi : i < numBlocks ecl version) :
    (Qr.layout ecl.standard version).received
        (Qr.codewordRead version mask (symbol version ecl mask code)) i =
      blockData ecl version data i ++
        checkOf (blockEccLen ecl version) (blockData ecl version data i) := by
  obtain ⟨-, before, hwrites⟩ := hcode
  obtain ⟨hdata, hecc⟩ := interleaved_at hv ecl hwrites hi
  have htotal := total_dataBlocks hv ecl
  have hraw := total_eccBlocks hv ecl
  rw [received_eq hv ecl _ hi]
  congr 1
  · refine List.map_congr_left fun j hj => ?_
    have hj := List.mem_range.1 hj
    have hplace := Blocks.place_lt (B := dataBlocks ecl version) hi hj
    rw [codewordRead_symbol hv ecl hmask (by omega), hdata j hj]
  · refine List.ext_getElem (by simp) fun j hj _ => ?_
    have hj : j < blockEccLen ecl version := by simpa using hj
    have hplace := Blocks.place_lt (B := eccBlocks ecl version) (j := j) hi
      (by rwa [size_eccBlocks hi])
    simp only [checkOf, List.getElem_map, List.getElem_range]
    rw [codewordRead_symbol hv ecl hmask (by omega), hecc j hj,
      List.getD_eq_getElem _ _ (by simpa using hj)]

/-- A block of a symbol is a word of the code of the standard. -/
theorem isCodeword_checkOf (degree : Nat) (block : List Byte) :
    Qr.IsCodeword degree (block ++ checkOf degree block) := by
  refine isCodeword_iff.2 fun j hj => ?_
  have hword : inField (block ++ checkOf degree block) = blockWord degree block := by
    rw [inField, List.map_append, checkOf, List.map_map]
    exact congrArg _ (List.map_id _)
  rw [hword]
  exact horner_blockWord hj block

/-- The format of a symbol is read as it was drawn, from both copies. -/
theorem formatRead_symbol {version mask : Nat} (hv : IsVersion version) (ecl : Ecc)
    (hmask : mask ≤ 7) (code : Bytes) (other : Bool) :
    Qr.formatRead version other (symbol version ecl mask code) =
      Qr.formatBits ecl.standard mask := by
  have hside := isVersion_side hv
  refine List.map_congr_left fun i hi => ?_
  have hi := List.mem_range.1 hi
  obtain ⟨hplace, hplace'⟩ := formatPlace_eq (s := version * 4 + 17) hi
  rw [← formatWord_eq ecl hmask, ← getBit_eq_testBit]
  cases other with
  | false => exact (congrArg _ hplace).trans (writeAll_formatWrites hside.1 hi _).1
  | true => exact (congrArg _ hplace').trans (writeAll_formatWrites hside.1 hi _).2

/-! ## One content at most -/

/-- At most one block is near to what was received. -/
theorem correctsTo_unique {version : Nat} (hv : IsVersion version) {ecl : Ecc}
    {codewords : Nat → Byte} {i : Nat} (hi : i < numBlocks ecl version) {block block' : List Byte}
    (h : (Qr.layout ecl.standard version).CorrectsTo codewords i block)
    (h' : (Qr.layout ecl.standard version).CorrectsTo codewords i block') : block = block' := by
  obtain ⟨hlen, check, hcheck, hword, hnear⟩ := h
  obtain ⟨hlen', check', hcheck', hword', hnear'⟩ := h'
  obtain ⟨-, hecc, -, -⟩ := layout_eq hv ecl
  have hbounds := layout_bounds hv ecl
  have hgetD := sizes_getD hv ecl hi
  have hsize : (dataBlocks ecl version).size i ≤
      rawDataModules version / 8 / numBlocks ecl version - blockEccLen ecl version + 1 := by
    rw [Blocks.size]
    show rawDataModules version / 8 / numBlocks ecl version - blockEccLen ecl version + _ ≤ _
    split <;> omega
  have hinj : Function.Injective GF.mk := fun a b hab => congrArg GF.byte hab
  -- the words as they are over the field
  rw [← distance_map hinj] at hnear hnear'
  have heq := eq_of_near (α := GF.two) ?_ ?_ ?_ (isCodeword_iff.1 hword) (isCodeword_iff.1 hword')
    ?_ hnear hnear'
  · exact List.append_inj_left (List.map_injective_iff.2 hinj heq) (hlen.trans hlen'.symm)
  · simp [inField, hlen, hcheck]
  · simp [inField, hlen', hcheck']
  · refine GF.two_pow_injOn ?_
    rw [length_inField, List.length_append, hlen, hcheck, hecc, hgetD]
    omega
  · omega

/-- A reader finds the same in one picture every time. -/
theorem reads_unique {version : Nat} (hv : IsVersion version) {f : Nat × Nat → Bool}
    {bits bits' : List Bool} (h : Qr.Reads version f bits) (h' : Qr.Reads version f bits') :
    bits = bits' := by
  obtain ⟨level, mask, blocks, hmask, hformat, hblocks, rfl⟩ := h
  obtain ⟨level', mask', blocks', hmask', hformat', hblocks', rfl⟩ := h'
  obtain ⟨rfl, rfl⟩ := Qr.format_unique hmask hmask' hformat hformat'
  obtain ⟨ecl, rfl⟩ := Ecc.standard_surjective level
  congr 1
  refine List.flatMap_congr fun i hi => ?_
  rw [List.mem_range] at hi
  exact correctsTo_unique hv ((layout_eq hv ecl).1 ▸ hi) (hblocks i hi) (hblocks' i hi)

/-! ## What is found -/

/-- The blocks in their order are the data. -/
theorem flatMap_blockData (ecl : Ecc) (version : Nat) (data : Bytes) (n : Nat) :
    (List.range n).flatMap (blockData ecl version data) =
      slice data 0 ((dataBlocks ecl version).offset n) := by
  induction n with
  | zero => rw [Blocks.offset_zero]; rfl
  | succ n ih =>
    rw [List.range_succ, List.flatMap_append, List.flatMap_singleton, ih, Blocks.offset_succ,
      slice_add, Nat.zero_add]
    rfl

/-- The data codewords are found in a symbol that is not damaged too much. -/
theorem reads_of_near {version mask : Nat} (hv : IsVersion version) {ecl : Ecc}
    (hmask : mask ≤ 7) {data code : Bytes} (hcode : CodewordsOf version ecl data code)
    {f : Nat × Nat → Bool}
    (hnear : Qr.Near version ecl.standard mask (symbol version ecl mask code) f) :
    Qr.Reads version f (bitsOf (slice data 0 (dataCodewords version ecl))) := by
  obtain ⟨hformat, hblocks⟩ := hnear
  obtain ⟨hcount, hcheck, -, -⟩ := layout_eq hv ecl
  rw [formatRead_symbol hv ecl hmask] at hformat
  refine ⟨ecl.standard, mask, blockData ecl version data, hmask, hformat, fun i hi => ?_, ?_⟩
  · have hnear := hblocks i hi
    rw [hcount] at hi
    rw [received_symbol hv hmask hcode hi] at hnear
    refine ⟨?_, checkOf (blockEccLen ecl version) (blockData ecl version data i), ?_, ?_, hnear⟩
    · rw [sizes_getD hv ecl hi, blockData, length_slice]
    · rw [length_checkOf, hcheck]
    · rw [hcheck]
      exact isCodeword_checkOf _ _
  · rw [hcount, flatMap_blockData, ← total_dataBlocks hv ecl, ← Blocks.offset_count]
    rfl

/-- What a reader finds in a picture of a symbol is its message with the padding. -/
theorem reads_iff {version mask : Nat} (hv : IsVersion version) {ecl : Ecc} (hmask : mask ≤ 7)
    {asked : Mask} {message : List Bool} {q : Bytes}
    (h : IsSymbolOf version ecl asked mask message q) {f : Nat × Nat → Bool}
    (hnear : Qr.Near version ecl.standard mask (pixelAt (version * 4 + 17) q) f)
    {bits : List Bool} :
    Qr.Reads version f bits ↔ bits = paddedBits (dataCodewords version ecl) message := by
  obtain ⟨-, f, ⟨data, code, hcode, hdata, rfl⟩, -, hpixels⟩ := h
  rw [hpixels] at hnear
  have hreads := reads_of_near hv hmask hcode hnear
  rw [hdata] at hreads
  constructor
  · intro hbits
    exact reads_unique hv hbits hreads
  · rintro rfl
    exact hreads

/-- Of a picture with its symbol a reader makes the pieces that were encoded. -/
theorem readsAs_iff {version mask : Nat} (hv : IsVersion version) {ecl : Ecc} (hmask : mask ≤ 7)
    {pieces : List Piece} (hvalid : ∀ p ∈ pieces, p.Valid) (hfit : PiecesFit pieces ecl version)
    {asked : Mask} {q : Bytes}
    (h : IsSymbolOf version ecl asked mask (piecesMessage version pieces) q)
    {f : Nat × Nat → Bool}
    (hnear : Qr.Near version ecl.standard mask (pixelAt (version * 4 + 17) q) f)
    {found : List Qr.Part} :
    Qr.ReadsAs version f found ↔ found = pieces.map Piece.standard := by
  have hroom : (piecesMessage version pieces).length ≤ dataCodewords version ecl * 8 := by
    have := hfit.2
    omega
  have hlen := length_paddedBits hroom
  have hcontent := readParts_paddedBits hv hvalid hfit.1 hroom
    ((paddedBits (dataCodewords version ecl) (piecesMessage version pieces)).length + 1)
    (by omega)
  constructor
  · rintro ⟨bits, hreads, hfound⟩
    obtain rfl := (reads_iff hv hmask h hnear).1 hreads
    rw [hcontent, Option.some.injEq] at hfound
    exact hfound.symm
  · rintro rfl
    exact ⟨_, (reads_iff hv hmask h hnear).2 rfl, hcontent⟩

end Thor
