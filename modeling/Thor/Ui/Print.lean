import Thor.Comm.Peers
import Thor.Ui.Landmarks
import Thor.Ui.RoundTrip

/-!
# The symbol on the console (ui/qr.c, comm/server.c)

When the server comes up it shows where it can be reached: `__up` makes the address a symbol,
on the console and in the log file, two characters for every module.

- `printQr`, `sendQrToUi`, `announce`: the functions of the source.
- `pictureAt`: the modules in a printed picture, whose side is known by its lines.
- `sendQrToUi_gives`: whoever reads the picture gets the text.
-/

namespace Thor

open CLib

/-- A line of the picture, with the coordinates of the source. -/
def printLine (qrcode : Bytes) (size border i : Nat) (ui : Str) : Option Str := do
  let y : Int := i - border
  let ui ← loop (size + 2 * border) (fun j ui => do
    let x : Int := j - border
    let black ← getModuleBounded qrcode x y
    return ui ++ (if black then lit "##" else lit "  ")) ui
  return ui ++ lit "\n"

/-- `print_qr`: what it appends to the stream. -/
def printQr (qrcode : Bytes) (ui : Str) : Option Str := do
  let size ← getSize qrcode
  let border := 4
  let ui ← loop (size + 2 * border) (printLine qrcode size border) ui
  return ui ++ lit "\n"

/-- `__send_qr_to_ui`, with what its two arrays hold at the start. -/
def sendQrToUi (tempBuffer qrcode : Bytes) (ui : Str) (information : List Byte) : Option Str := do
  let r ← encodeText information tempBuffer qrcode .low versionMin versionMax .auto true
  if r.ok then printQr r.qrcode ui else some ui

/-- The bytes of a text. -/
def bytesOf (s : Str) : List Byte := s.map fun c => BitVec.ofNat 8 c.toNat

/-- The address that `__up` shows. -/
def serverUrl (ip : Str) (port : Int) : Str :=
  sprintf (lit "%s:%d") [ip, fmtD (if port = 0 then 50002 else port)]

/-- The two calls of `to_ui` in `__up`, each with its own arrays. -/
def announce (tempBuffer qrcode tempBuffer' qrcode' : Bytes) (ip : Str) (port : Int)
    (stdout logFile : Str) : Option (Str × Str) := do
  -- the array of the address: `calloc(ipl + 15, sizeof(char))`
  assert (fits (ip.length + 15) (serverUrl ip port))
  let stdout ← sendQrToUi tempBuffer qrcode stdout (bytesOf (serverUrl ip port))
  let logFile ← sendQrToUi tempBuffer' qrcode' logFile (bytesOf (serverUrl ip port))
  return (stdout, logFile)

/-! ## The picture -/

/-- A module of the picture, which has a border of four white ones. -/
def bordered (f : Nat × Nat → Bool) (j i : Nat) : Bool := decide (4 ≤ j ∧ 4 ≤ i) && f (j - 4, i - 4)

def cellText (black : Bool) : Str := if black then ['#', '#'] else [' ', ' ']

def lineText (s : Nat) (f : Nat × Nat → Bool) (i : Nat) : Str :=
  ((List.range (s + 8)).flatMap fun j => cellText (bordered f j i)) ++ ['\n']

/-- The picture of a symbol. -/
def picture (s : Nat) (f : Nat × Nat → Bool) : Str :=
  (List.range (s + 8)).flatMap (lineText s f) ++ ['\n']

theorem getModuleBounded_eq {s : Nat} {q : Bytes} (h : IsSymbol s q) (j i : Nat) :
    getModuleBounded q ((j : Int) - 4) ((i : Int) - 4) = some (bordered (pixelAt s q) j i) := by
  rw [getModuleBounded, load_bind h.pos, h.toNat_size, bordered]
  by_cases hin : 4 ≤ j ∧ 4 ≤ i
  · rw [decide_eq_true hin, Bool.true_and]
    have hj : ((j : Int) - 4).toNat = j - 4 := by omega
    have hi : ((i : Int) - 4).toNat = i - 4 := by omega
    by_cases hs : j - 4 < s ∧ i - 4 < s
    · rw [if_pos (by omega), hj, hi, getModule_eq h hs.1 hs.2]
    · rw [if_neg (by omega), pixelAt, if_neg hs]
  · rw [decide_eq_false hin, Bool.false_and, if_neg (by omega)]

theorem printLine_eq {s : Nat} {q : Bytes} (h : IsSymbol s q) (i : Nat) (ui : Str) :
    printLine q s 4 i ui = some (ui ++ lineText s (pixelAt s q) i) := by
  have hcell : ∀ j < s + 2 * 4, ∀ out : Str, (do
      let black ← getModuleBounded q ((j : Int) - (4 : Nat)) ((i : Int) - (4 : Nat))
      return out ++ (if black then lit "##" else lit "  ")) =
        some (out ++ cellText (bordered (pixelAt s q) j i)) := by
    intro j _ out
    have hmodule := getModuleBounded_eq h j i
    rw [show (4 : Int) = (4 : Nat) from rfl] at hmodule
    rw [hmodule, some_bind, cellText]
    rfl
  rw [printLine]
  show (loop (s + 2 * 4) _ ui >>= _) = _
  rw [loop_append hcell, some_bind, lineText, ← List.append_assoc]
  rfl

theorem printQr_eq {s : Nat} {q : Bytes} (h : IsSymbol s q) (ui : Str) :
    printQr q ui = some (ui ++ picture s (pixelAt s q)) := by
  rw [printQr, getSize_eq h, some_bind]
  show (loop (s + 2 * 4) (printLine q s 4) ui >>= _) = _
  rw [loop_append fun i _ ui => printLine_eq h i ui, some_bind, picture, ← List.append_assoc]
  rfl

/-! ## Reading it -/

/-- The side of the symbol in a picture: the border and the last line make nine more lines. -/
def pictureSide (text : Str) : Nat := text.count '\n' - 9

/-- The modules in a picture. -/
def pictureAt (text : Str) (p : Nat × Nat) : Bool :=
  decide (p.1 < pictureSide text ∧ p.2 < pictureSide text) &&
    text.getD ((p.2 + 4) * (2 * (pictureSide text + 8) + 1) + 2 * (p.1 + 4)) ' ' == '#'

theorem length_lineText (s : Nat) (f : Nat × Nat → Bool) (i : Nat) :
    (lineText s f i).length = 2 * (s + 8) + 1 := by
  have hcell : ∀ black, (cellText black).length = 2 := by decide
  simp [lineText, List.length_flatMap, hcell, Nat.mul_comm]

theorem count_flatMap_range {g : Nat → Str} {c : Char} {k n : Nat}
    (h : ∀ i < n, (g i).count c = k) : ((List.range n).flatMap g).count c = n * k := by
  induction n with
  | zero => simp
  | succ n ih =>
    rw [List.range_succ, List.flatMap_append, List.flatMap_singleton, List.count_append,
      ih fun i hi => h i (Nat.lt_succ_of_lt hi), h n (Nat.lt_succ_self n), Nat.succ_mul]

theorem pictureSide_picture (s : Nat) (f : Nat × Nat → Bool) : pictureSide (picture s f) = s := by
  have hcell : ∀ black, (cellText black).count '\n' = 0 := by decide
  have hline : ∀ i < s + 8, (lineText s f i).count '\n' = 1 := by
    intro i _
    rw [lineText, List.count_append, count_flatMap_range (k := 0) fun j _ => hcell _]
    rfl
  rw [pictureSide, picture, List.count_append, count_flatMap_range hline]
  show (s + 8) * 1 + 1 - 9 = s
  omega

/-- The modules of a picture are those that were printed. -/
theorem pictureAt_picture {s : Nat} {f : Nat × Nat → Bool}
    (hf : ∀ p, ¬ (p.1 < s ∧ p.2 < s) → f p = false) : pictureAt (picture s f) = f := by
  funext p
  rw [pictureAt, pictureSide_picture]
  by_cases hin : p.1 < s ∧ p.2 < s
  · have hcell : ∀ black, (cellText black).length = 2 := by decide
    have hchar : (picture s f)[(p.2 + 4) * (2 * (s + 8) + 1) + 2 * (p.1 + 4)]? =
        (cellText (f p))[0]? := by
      have hline : ((List.range (s + 8)).flatMap (lineText s f))[(p.2 + 4) * (2 * (s + 8) + 1) +
          2 * (p.1 + 4)]? = (lineText s f (p.2 + 4))[2 * (p.1 + 4)]? :=
        getElem?_flatMap_range (fun i _ => length_lineText s f i) (by omega) (by omega)
      have hmodule : ((List.range (s + 8)).flatMap fun j =>
          cellText (bordered f j (p.2 + 4)))[(p.1 + 4) * 2 + 0]? =
          (cellText (bordered f (p.1 + 4) (p.2 + 4)))[0]? :=
        getElem?_flatMap_range (fun j _ => hcell _) (by omega) (by omega)
      have hframed : bordered f (p.1 + 4) (p.2 + 4) = f p := by
        simp [bordered]
      have hsome : (cellText (f p))[0]?.isSome = true := by
        cases f p <;> rfl
      rw [hframed] at hmodule
      rw [Nat.add_zero ((p.1 + 4) * 2), Nat.mul_comm (p.1 + 4) 2] at hmodule
      obtain ⟨c, hc⟩ := Option.isSome_iff_exists.1 hsome
      rw [hc] at hmodule ⊢
      rw [lineText, List.getElem?_append_left (List.getElem?_eq_some_iff.1 hmodule).1,
        hmodule] at hline
      rw [picture, List.getElem?_append_left (List.getElem?_eq_some_iff.1 hline).1, hline]
    rw [decide_eq_true hin, Bool.true_and, List.getD_eq_getElem?_getD, hchar]
    cases f p <;> rfl
  · rw [decide_eq_false hin, Bool.false_and, hf p hin]

/-! ## What is shown -/

/-- The picture is that of a symbol with its landmarks, and any reader by the standard gets the
text of it, when it has no more damage than the error correction of its level is for. -/
def PictureReads (text : Str) (information : List Byte) : Prop :=
  ∃ version level mask, pictureSide text = version * 4 + 17 ∧
    Qr.HasLandmarks version level mask (pictureAt text) ∧
    ∀ f, Qr.Near version level mask (pictureAt text) f →
      (∃ found, Qr.ReadsAs version f found) ∧ ∀ found, Qr.ReadsAs version f found →
        Qr.textOf found = information

/-- The order of `__send_qr_to_ui`. -/
def uiOrder : Order := ⟨.low, versionMin, versionMax, .auto, true⟩

theorem uiOrder_valid : uiOrder.Valid := ⟨by decide, by decide, by decide, trivial⟩

theorem isVersion_max : IsVersion versionMax := ⟨by decide, Nat.le_refl _⟩

/-- A text of so many bytes fits the largest symbol, in any mode. -/
theorem pieceOf_fits {text : List Byte} (h : text.length ≤ 2953) :
    PiecesFit (pieceOf text) .low versionMax := by
  have hcap : dataCodewords versionMax .low = 2956 := by decide
  have hone : ∀ p : Piece, p.numChars < 2 ^ charCountBits p.mode versionMax →
      p.bits.length + 20 ≤ 23648 → PiecesFit [p] .low versionMax := by
    intro p hcount hbits
    have hwidth := charCountBits_le isVersion_max p.mode
    refine ⟨fun p' hp' => by rwa [List.mem_singleton.1 hp'], ?_⟩
    rw [piecesMessage, List.flatMap_singleton, Piece.message, List.length_append,
      List.length_append, length_toBits, length_toBits, hcap]
    omega
  rw [pieceOf]
  split_ifs
  · exact ⟨by simp, Nat.zero_le _⟩
  · refine hone _ ?_ ?_
    · show text.length < 2 ^ 14
      omega
    · rw [Piece.bits, ← bitCount_numeric, Mode.bitCount]
      omega
  · refine hone _ ?_ ?_
    · show text.length < 2 ^ 13
      omega
    · rw [Piece.bits, ← bitCount_alphanumeric, Mode.bitCount]
      omega
  · refine hone _ ?_ ?_
    · show text.length < 2 ^ 16
      omega
    · rw [Piece.bits, length_bitsOf]
      omega

section

variable {temp q : Bytes} (htemp : bufferLenForVersion versionMax ≤ temp.size)
  (hq : bufferLenForVersion versionMax ≤ q.size)
include htemp hq

/-- A text that fits some symbol is shown as a picture that spells it, and any other is not
shown. -/
theorem sendQrToUi_gives (ui : Str) (information : List Byte) :
    Gives (sendQrToUi temp q ui information) fun out =>
      (∃ text, out = ui ++ text ∧ PictureReads text information) ∨
        out = ui ∧ ∀ v, IsVersion v → ¬ PiecesFit (pieceOf information) .low v := by
  have hcall := encodeText_gives uiOrder_valid information htemp hq
  rw [sendQrToUi]
  refine hcall.bind ?_
  rintro r ⟨-, hr⟩
  by_cases hok : r.ok = true
  · obtain ⟨v, e, m, hmade, hread⟩ :=
      readBack_of_outcome uiOrder_valid (pieceOf_valid information) hr hok
    have hoff : ∀ p, ¬ (p.1 < v * 4 + 17 ∧ p.2 < v * 4 + 17) →
        pixelAt (v * 4 + 17) r.qrcode p = false := fun p hp => by rw [pixelAt, if_neg hp]
    have hmarks := hmade.hasLandmarks uiOrder_valid
    rw [if_pos hok, printQr_eq hmade.symbol.1]
    rw [← pictureAt_picture hoff] at hmarks
    refine gives_some (.inl ⟨_, rfl, v, e.standard, m, pictureSide_picture _ _, hmarks,
      fun f hf => ?_⟩)
    rw [pictureAt_picture hoff] at hf
    refine ⟨⟨_, (hread f hf _).2 rfl⟩, fun found hfound => ?_⟩
    rw [(hread f hf found).1 hfound]
    exact textOf_pieceOf information
  · rw [if_neg hok]
    refine gives_some (.inr ⟨rfl, fun v hv hfit => hok (hr.ok_iff.2 ⟨v, hv.1, hv.2, hfit⟩)⟩)

theorem sendQrToUi_shows (ui : Str) {information : List Byte} (h : information.length ≤ 2953) :
    Gives (sendQrToUi temp q ui information) fun out =>
      ∃ text, out = ui ++ text ∧ PictureReads text information := by
  refine (sendQrToUi_gives htemp hq ui information).mono ?_
  rintro out (hshown | ⟨-, hnone⟩)
  · exact hshown
  · exact absurd (pieceOf_fits h) (hnone versionMax isVersion_max)

end

/-- The address is in its array, whatever the port. -/
theorem length_serverUrl (ip : Str) {port : Int} (hport : IsInt32 port) :
    (serverUrl ip port).length ≤ ip.length + 12 := by
  have hshown : (fmtD (if port = 0 then 50002 else port)).length ≤ 10 + 1 := by
    refine length_fmtD (by decide) ?_
    obtain ⟨h1, h2⟩ := hport
    split <;> omega
  have hurl : serverUrl ip port =
      ip ++ ':' :: fmtD (if port = 0 then 50002 else port) := by
    simp [serverUrl, lit, sprintf]
  rw [hurl, List.length_append, List.length_cons]
  omega

/-- When the server comes up, the console and the log file both show its address. -/
theorem announce_gives {temp q temp' q' : Bytes}
    (htemp : bufferLenForVersion versionMax ≤ temp.size)
    (hq : bufferLenForVersion versionMax ≤ q.size)
    (htemp' : bufferLenForVersion versionMax ≤ temp'.size)
    (hq' : bufferLenForVersion versionMax ≤ q'.size) {ip : Str} (hip : ip.length ≤ 1023)
    {port : Int} (hport : IsInt32 port) (stdout logFile : Str) :
    Gives (announce temp q temp' q' ip port stdout logFile) fun out =>
      (∃ text, out.1 = stdout ++ text ∧ PictureReads text (bytesOf (serverUrl ip port))) ∧
        ∃ text, out.2 = logFile ++ text ∧ PictureReads text (bytesOf (serverUrl ip port)) := by
  have hlen := length_serverUrl ip hport
  have hbytes : (bytesOf (serverUrl ip port)).length ≤ 2953 := by
    rw [bytesOf, List.length_map]
    omega
  rw [announce, assert_bind (fits_iff.2 (by omega))]
  refine (sendQrToUi_shows htemp hq stdout hbytes).bind fun out hout => ?_
  refine (sendQrToUi_shows htemp' hq' logFile hbytes).bind fun out' hout' => ?_
  exact gives_some ⟨hout, hout'⟩

/-- A server on the default port. -/
theorem announce_gives_local :
    Gives (announce (clearArray versionMax) (clearArray versionMax) (clearArray versionMax)
      (clearArray versionMax) (lit "127.0.0.1") 0 [] []) fun out =>
        PictureReads out.1 (bytesOf (lit "127.0.0.1:50002")) ∧
          PictureReads out.2 (bytesOf (lit "127.0.0.1:50002")) := by
  have hroom := clearArray_room versionMax
  have hport : IsInt32 0 := ⟨by decide, by decide⟩
  refine (announce_gives hroom hroom hroom hroom
    (by decide : (lit "127.0.0.1").length ≤ 1023) hport [] []).mono ?_
  rintro out ⟨⟨text, hout, hread⟩, text', hout', hread'⟩
  rw [hout, hout']
  exact ⟨hread, hread'⟩

end Thor
