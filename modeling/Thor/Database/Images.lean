import Thor.CLib.Steps
import Thor.Database.Listings
import Thor.Database.Updates

/-!
# The images as a map

`__add_image`, `__update_item_image`, `__delete_image` and `__get_image_for_upc` on a table
of rows with keys of their own, and what they are for: a map from UPCs to images.

- `ImageMap`, `ImageMap.serve`: the map, and what each function is to do to it.
- `Represents`: a table whose rows are the bindings of a map.
- `ImageCall.serve_refines`: one call on the table is one call on the map.
- `images_refine`: so is every run.
-/

namespace Thor

open CLib Sql Prog

/-! ## The map -/

/-- A call of one of the functions. -/
inductive ImageCall where
  | add (upc image : Str)
  | update (upc : Str) (key : Option Commands) (value : Str)
  | delete (upc : Str)
  | get (upc : Str)

/-- What a caller sees: `0`, `-1`, or the text left in the result slot. -/
inductive ImageAnswer where
  | done
  | failed
  | shown (text : Option Str)
  | crashed

abbrev ImageMap := Str → Option Str

/-- The array of one image, or of none. -/
def imageArray (image : Option Str) : Str :=
  listing (image.toList.map fun i => [(lit "Image", some i)])

namespace ImageMap

variable (m : ImageMap)

/-- Add a binding, if there is none. -/
def add (upc image : Str) : ImageAnswer × ImageMap :=
  if m upc = none then (.done, Function.update m upc (some image)) else (.failed, m)

/-- Replace the image of a binding. -/
def replace (upc image : Str) : ImageMap :=
  if m upc = none then m else Function.update m upc (some image)

/-- Move a binding to another UPC, if that has none. -/
def move (upc upc' : Str) : ImageAnswer × ImageMap :=
  if m upc = none ∨ upc' = upc then (.done, m)
  else if m upc' = none then
    (.done, Function.update (Function.update m upc none) upc' (m upc))
  else (.failed, m)

/-- What each call is to do. -/
def serve : ImageCall → ImageAnswer × ImageMap
  | .add upc image => m.add upc image
  | .update upc (some .images) image => (.done, m.replace upc image)
  | .update upc (some .itemupc) upc' => m.move upc upc'
  | .update _ (some .imageextra) _ => (.done, m)
  | .update .. => (.failed, m)
  | .delete upc => (.done, Function.update m upc none)
  | .get upc => (.shown (some (imageArray (m upc))), m)

end ImageMap

/-! ## The calls -/

variable (y : Sys)

def ImageCall.prog : ImageCall → M Int
  | add upc image => addImage y (some upc) (some image)
  | update upc key value => updateItemImage y (some upc) key (some value)
  | delete upc => deleteImage y (some upc)
  | get upc => getImageForUpc y (some upc)

/-- What a caller makes of the outcome. -/
def ImageCall.answer (c : ImageCall) (o : Outcome World Crash Event Int) : ImageAnswer :=
  match o.val, c with
  | .error _, _ => .crashed
  | .ok 0, get _ => .shown (o.state.sess.value.map Buf.text)
  | .ok 0, _ => .done
  | .ok _, _ => .failed

def ImageCall.serve (w : World) (c : ImageCall) : ImageAnswer × World :=
  (c.answer ((c.prog y).run w), ((c.prog y).run w).state)

/-- No field has a quote, and the text fits its array. -/
def ImageCall.Fits : ImageCall → Prop
  | add upc image => QuoteFree upc ∧ QuoteFree image ∧ (addImageSql upc image).length < mb 12
  | update upc key value => QuoteFree upc ∧ QuoteFree value ∧
      ∀ c ∈ getMapping key, (updateItemImageSql c upc value).length < mb 12
  | delete upc => QuoteFree upc ∧ (deleteImageSql upc).length < 256
  | get upc => QuoteFree upc ∧ (getImageForUpcSql upc).length < 1024

/-! ## The table -/

def imageCol : Str := lit "Image"

/-- The rows of the images table are the bindings of a map. `room` is what is left of an
array of 12 MB when the text of an insert is taken off. -/
structure Represents (db : Db) (m : ImageMap) : Prop where
  keyed : (db imagesTable).Keyed idCol
  rows : ∀ r ∈ (db imagesTable).rows, ∃ u i,
    r upcCol = .text u ∧ r imageCol = .text i ∧ m u = some i
  bound : ∀ u i, m u = some i → i.length + 61 < mb 12 ∧ ∃ r ∈ (db imagesTable).rows, r upcCol = .text u
  sole : ∀ r ∈ (db imagesTable).rows, ∀ r' ∈ (db imagesTable).rows,
    r upcCol = r' upcCol → r = r'

theorem represents_empty {db : Db} (h : (db imagesTable).rows = []) :
    Represents db fun _ => none := by
  constructor
  · exact .of_ids [] (by rw [h]; rfl) List.nodup_nil
  · rw [h]
    exact fun _ hr => nomatch hr
  · exact fun _ _ hm => nomatch hm
  · rw [h]
    exact fun _ hr => nomatch hr

namespace Represents

variable {db : Db} {m : ImageMap}

/-- A row of a UPC has its image. -/
theorem image_eq (h : Represents db m) {r : Row} {u : Str} (hr : r ∈ (db imagesTable).rows)
    (hu : r upcCol = .text u) : ∃ i, r imageCol = .text i ∧ m u = some i := by
  obtain ⟨u', i, hu', hi, hm⟩ := h.rows r hr
  obtain rfl : u' = u := Value.text.inj (hu'.symm.trans hu)
  exact ⟨i, hi, hm⟩

/-- A UPC is bound when it has a row. -/
theorem eq_none_iff (h : Represents db m) {u : Str} :
    m u = none ↔ ∀ r ∈ (db imagesTable).rows, r upcCol ≠ .text u := by
  constructor
  · intro hnone r hr hu
    obtain ⟨i, -, hm⟩ := h.image_eq hr hu
    exact nomatch hnone.symm.trans hm
  · intro hrows
    by_contra hne
    obtain ⟨i, hi⟩ := Option.ne_none_iff_exists'.mp hne
    obtain ⟨-, r, hr, hu⟩ := h.bound u i hi
    exact hrows r hr hu

/-- A row for a UPC without one. -/
theorem insert (h : Represents db m) {u i : Str} {r : Row} (hu : m u = none)
    (hlen : i.length + 61 < mb 12) (hupc : r upcCol = .text u) (himage : r imageCol = .text i)
    (hkey : r idCol = .int ((db imagesTable).nextKey idCol)) :
    Represents (Function.update db imagesTable
      ⟨(db imagesTable).rows ++ [r], (db imagesTable).nextKey idCol⟩)
      (Function.update m u (some i)) := by
  have hfree := h.eq_none_iff.mp hu
  have hmem {r' : Row} : r' ∈ (db imagesTable).rows ++ [r] ↔ r' ∈ (db imagesTable).rows ∨ r' = r := by
    rw [List.mem_append, List.mem_singleton]
  constructor
  · rw [Function.update_self]
    exact h.keyed.append hkey
  · intro r' hr'
    rw [Function.update_self] at hr'
    rcases hmem.mp hr' with hr' | rfl
    · obtain ⟨u', i', hu', hi', hm⟩ := h.rows r' hr'
      have hne : u' ≠ u := fun heq => hfree r' hr' (heq ▸ hu')
      exact ⟨u', i', hu', hi', by rw [Function.update_of_ne hne, hm]⟩
    · exact ⟨u, i, hupc, himage, Function.update_self ..⟩
  · intro u' i' hm
    rw [Function.update_self]
    by_cases heq : u' = u
    · subst heq
      rw [Function.update_self] at hm
      cases hm
      exact ⟨hlen, r, hmem.mpr (.inr rfl), hupc⟩
    · rw [Function.update_of_ne heq] at hm
      obtain ⟨hlen', r', hr', hu'⟩ := h.bound u' i' hm
      exact ⟨hlen', r', hmem.mpr (.inl hr'), hu'⟩
  · rw [Function.update_self]
    intro r₁ h₁ r₂ h₂ heq
    rcases hmem.mp h₁ with hr₁ | rfl <;> rcases hmem.mp h₂ with hr₂ | rfl
    · exact h.sole r₁ hr₁ r₂ hr₂ heq
    · exact absurd (heq.trans hupc) (hfree r₁ hr₁)
    · exact absurd (heq.symm.trans hupc) (hfree r₂ hr₂)
    · rfl

/-- The rows of a UPC are deleted. -/
theorem delete (h : Represents db m) (u : Str) {p : Row → Bool}
    (hp : ∀ r, p r = true ↔ r upcCol ≠ .text u) :
    Represents (Function.update db imagesTable
      ⟨(db imagesTable).rows.filter p, (db imagesTable).seq⟩) (Function.update m u none) := by
  constructor
  · rw [Function.update_self]
    exact h.keyed.filter p _
  · intro r hr
    rw [Function.update_self] at hr
    obtain ⟨hr, hne⟩ := List.mem_filter.mp hr
    obtain ⟨u', i, hu', hi, hm⟩ := h.rows r hr
    have hne : u' ≠ u := fun heq => (hp r).mp hne (heq ▸ hu')
    exact ⟨u', i, hu', hi, by rw [Function.update_of_ne hne, hm]⟩
  · intro u' i hm
    rw [Function.update_self]
    have hne : u' ≠ u := by
      rintro rfl
      rw [Function.update_self] at hm
      cases hm
    rw [Function.update_of_ne hne] at hm
    obtain ⟨hlen, r, hr, hu'⟩ := h.bound u' i hm
    refine ⟨hlen, r, List.mem_filter.mpr ⟨hr, (hp r).mpr fun heq => hne ?_⟩, hu'⟩
    exact Value.text.inj (hu'.symm.trans heq)
  · rw [Function.update_self]
    intro r₁ h₁ r₂ h₂ heq
    exact h.sole r₁ (List.mem_of_mem_filter h₁) r₂ (List.mem_of_mem_filter h₂) heq

/-- The row of a UPC is changed, and no other has the UPC it has then. -/
theorem setRow (h : Represents db m) {r₀ : Row} {f : Row → Row} {u u' i' : Str}
    (hr₀ : r₀ ∈ (db imagesTable).rows) (hu : r₀ upcCol = .text u)
    (hid : ∀ r, f r idCol = r idCol) (hu' : f r₀ upcCol = .text u')
    (hi' : f r₀ imageCol = .text i') (hlen : i'.length + 61 < mb 12)
    (hfree : ∀ r ∈ (db imagesTable).rows, r idCol ≠ r₀ idCol → r upcCol ≠ .text u') :
    Represents (Function.update db imagesTable ((db imagesTable).setRow idCol r₀ f))
      (Function.update (Function.update m u none) u' (some i')) := by
  have hmem {r : Row} := h.keyed.mem_setRow (r := r) hr₀ (f := f)
  -- the other rows have neither UPC
  have hother {r : Row} (hr : r ∈ (db imagesTable).rows) (hne : r idCol ≠ r₀ idCol) :
      r upcCol ≠ .text u := by
    intro heq
    rw [h.sole r hr r₀ hr₀ (heq.trans hu.symm)] at hne
    exact hne rfl
  have hkept {r : Row} {u₁ : Str} (hr : r ∈ (db imagesTable).rows) (hne : r idCol ≠ r₀ idCol)
      (hu₁ : r upcCol = .text u₁) :
      Function.update (Function.update m u none) u' (some i') u₁ = m u₁ := by
    rw [Function.update_of_ne fun heq : u₁ = u' => hfree r hr hne (heq ▸ hu₁),
      Function.update_of_ne fun heq : u₁ = u => hother hr hne (heq ▸ hu₁)]
  constructor
  · rw [Function.update_self]
    exact h.keyed.setRow hid
  · intro r hr
    rw [Function.update_self] at hr
    rcases hmem.mp hr with rfl | ⟨hr, hne⟩
    · exact ⟨u', i', hu', hi', Function.update_self ..⟩
    · obtain ⟨u₁, i₁, hu₁, hi₁, hm⟩ := h.rows r hr
      exact ⟨u₁, i₁, hu₁, hi₁, (hkept hr hne hu₁).trans hm⟩
  · intro u₁ i₁ hm
    rw [Function.update_self]
    by_cases heq : u₁ = u'
    · subst heq
      rw [Function.update_self] at hm
      cases hm
      exact ⟨hlen, f r₀, hmem.mpr (.inl rfl), hu'⟩
    · rw [Function.update_of_ne heq] at hm
      have hne : u₁ ≠ u := by
        rintro rfl
        rw [Function.update_self] at hm
        cases hm
      rw [Function.update_of_ne hne] at hm
      obtain ⟨hlen₁, r, hr, hu₁⟩ := h.bound u₁ i₁ hm
      refine ⟨hlen₁, r, hmem.mpr (.inr ⟨hr, fun hsame => hne ?_⟩), hu₁⟩
      rw [h.keyed.eq_of_key hr hr₀ hsame] at hu₁
      exact Value.text.inj (hu₁.symm.trans hu)
  · rw [Function.update_self]
    intro r₁ h₁ r₂ h₂ heq
    rcases hmem.mp h₁ with rfl | ⟨h₁, hne₁⟩ <;> rcases hmem.mp h₂ with rfl | ⟨h₂, hne₂⟩
    · rfl
    · exact absurd (heq.symm.trans hu') (hfree r₂ h₂ hne₂)
    · exact absurd (heq.trans hu') (hfree r₁ h₁ hne₁)
    · exact h.sole r₁ h₁ r₂ h₂ heq

end Represents

/-! ## Statements about images -/

variable {y} {db : Db} {m : ImageMap}

/-- The constraint of the images table. -/
theorem clash_image {r r' : Row} {u : Str} (hu : r upcCol = .text u) :
    itemImages.clash r r' = true ↔ r' upcCol = .text u := by
  show (([[upcCol]] : List (List Str)).any fun cols => cols.all fun c =>
    decide (r c ≠ .null ∧ r c = r' c)) = true ↔ _
  simp only [List.any_cons, List.any_nil, List.all_cons, List.all_nil, Bool.or_false, Bool.and_true,
    decide_eq_true_iff, hu]
  exact ⟨fun h => h.2.symm, fun h => ⟨Value.noConfusion, h.symm⟩⟩

/-- Another row has the UPC. -/
theorem obstructs_image {r : Row} {u : Str} (hu : r upcCol = .text u) :
    (db imagesTable).obstructs itemImages r = true ↔
      ∃ r' ∈ (db imagesTable).rows, r' idCol ≠ r idCol ∧ r' upcCol = .text u := by
  unfold Table.obstructs
  rw [List.any_eq_true]
  refine exists_congr fun r' => and_congr_right fun _ => ?_
  rw [Bool.and_eq_true, clash_image hu, decide_eq_true_iff]
  rfl

/-- The row that `__add_image` makes. -/
def newImage (y : Sys) (key : Int) (upc image : Str) : Row :=
  y.engine.newRow itemImages key [lit "UPC", lit "Image", lit "Extra"]
    [.str upc, .str image, .str (lit " ")]

theorem newImage_upc (key : Int) (upc image : Str) :
    newImage y key upc image upcCol = .text upc := rfl

/-- An image is added to a UPC without one. -/
theorem execStmt_addImage (h : Represents db m) (upc image : Str) :
    y.engine.execStmt catalog (Built.stmt y (.addImage upc image)) db =
      if m upc = none then ⟨Function.update db imagesTable
        ⟨(db imagesTable).rows ++ [newImage y ((db imagesTable).nextKey idCol) upc image],
          (db imagesTable).nextKey idCol⟩, [], none⟩
      else ⟨db, [], some uniqueFailed⟩ := by
  have hclash : (db imagesTable).rows.any (itemImages.clash
      (newImage y ((db imagesTable).nextKey idCol) upc image)) = true ↔ m upc ≠ none := by
    rw [List.any_eq_true]
    constructor
    · rintro ⟨r, hr, hclash⟩ hnone
      exact h.eq_none_iff.mp hnone r hr ((clash_image (newImage_upc ..)).mp hclash)
    · intro hne
      obtain ⟨i, hi⟩ := Option.ne_none_iff_exists'.mp hne
      obtain ⟨-, r, hr, hu⟩ := h.bound upc i hi
      exact ⟨r, hr, (clash_image (newImage_upc ..)).mpr hu⟩
  refine (@Engine.execStmt_insert y.engine catalog db itemImages imagesTable _ _ rfl rfl rfl).trans ?_
  by_cases hu : m upc = none
  · rw [if_pos hu]
    exact if_neg fun hany => hclash.mp hany hu
  · rw [if_neg hu]
    exact if_pos (hclash.mpr hu)

theorem execStmt_deleteImage (upc : Str) :
    y.engine.execStmt catalog (Built.stmt y (.deleteImage upc)) db =
      ⟨Function.update db imagesTable
        ⟨(db imagesTable).rows.filter fun r => !y.engine.hits catalog db itemImages
          (UpdateTable.images.named upc) r, (db imagesTable).seq⟩, [], none⟩ :=
  @Engine.execStmt_delete y.engine catalog db itemImages imagesTable
    (UpdateTable.images.named upc) rfl rfl

/-- The column of a key that the images table has. -/
def imageColumn : Commands → Option Column
  | .images => some ⟨imageCol, .blob, true⟩
  | .itemupc => some (textColumn "UPC")
  | .imageextra => some ⟨lit "Extra", .text, false⟩
  | _ => none

theorem find_imageColumn {k : Commands} {c : Str} (hc : getMapping (some k) = some c) :
    itemImages.find c = imageColumn k := by
  have hall : ∀ p ∈ userInfoTable, itemImages.find p.2 = imageColumn p.1 := by
    simp only [userInfoTable, List.forall_mem_cons]
    exact ⟨rfl, rfl, rfl, rfl, rfl, rfl, rfl, rfl, rfl, rfl, fun _ h => nomatch h⟩
  exact hall _ (mem_userInfoTable hc)

/-- The row of a bound UPC is the one an update reaches. -/
theorem Represents.updatedRow (h : Represents db m) {u i : Str} (hu : m u = some i) :
    ∃ r₀ ∈ (db imagesTable).rows, r₀ upcCol = .text u ∧ r₀ imageCol = .text i ∧
      Thor.updatedRow y .images db u = some r₀ := by
  obtain ⟨-, r, hr, hru⟩ := h.bound u i hu
  obtain ⟨r₀, hr₀⟩ := exists_updatedRow (y := y) (u := .images) hr hru
  obtain ⟨hmem, hname⟩ := updatedRow_mem hr₀
  obtain ⟨i', hi', hm⟩ := h.image_eq hmem hname
  obtain rfl : i' = i := Option.some.inj (hm.symm.trans hu)
  exact ⟨r₀, hmem, hname, hi', hr₀⟩

/-- What an update of the images is to the map. -/
structure Effect (r : Result) (p : ImageAnswer × ImageMap) : Prop where
  answer : p.1 = if r.err = none then .done else .failed
  represents : Represents r.db p.2

/-- An update of a bound UPC, whichever its column is. -/
theorem Represents.execStmt_update (h : Represents db m) {u i c v : Str} {col : Column}
    (hu : m u = some i) (hc : c ∈ mappedColumns) (hfind : itemImages.find c = some col) :
    ∃ r₀ ∈ (db imagesTable).rows, r₀ upcCol = .text u ∧ r₀ imageCol = .text i ∧
      y.engine.execStmt catalog (updateStmt .images c v u) db =
        if (db imagesTable).obstructs itemImages (y.engine.setCol col (.str v) r₀) then
          ⟨db, [], some uniqueFailed⟩
        else ⟨Function.update db imagesTable
          ((db imagesTable).setRow idCol r₀ (y.engine.setCol col (.str v))), [], none⟩ := by
  obtain ⟨r₀, hr₀, hname, hi, hrow⟩ := h.updatedRow (y := y) hu
  exact ⟨r₀, hr₀, hname, hi,
    execStmt_update_some (u := .images) hc hfind h.keyed hrow⟩

/-- With the UPC left as it is, no other row obstructs. -/
theorem Represents.not_obstructs (h : Represents db m) {r₀ r : Row} {u : Str}
    (hr₀ : r₀ ∈ (db imagesTable).rows) (hu : r₀ upcCol = .text u) (hr : r upcCol = .text u)
    (hid : r idCol = r₀ idCol) : ¬ (db imagesTable).obstructs itemImages r = true := by
  intro hobstructs
  obtain ⟨r', hr', hne, hu'⟩ := (obstructs_image hr).mp hobstructs
  rw [h.sole r' hr' r₀ hr₀ (hu'.trans hu.symm)] at hne
  exact hne hid.symm

/-- An update of another column leaves the binding's name where it is. -/
theorem effect_set (h : Represents db m) {c u v i j : Str} {col : Column} (hc : c ∈ mappedColumns)
    (hfind : itemImages.find c = some col) (hid : idCol ≠ col.name) (hname : upcCol ≠ col.name)
    (hu : m u = some i) (hlen : j.length + 61 < mb 12)
    (himage : ∀ r : Row, r imageCol = .text i →
      y.engine.setCol col (.str v) r imageCol = .text j) :
    Effect (y.engine.execStmt catalog (updateStmt .images c v u) db)
      (.done, Function.update m u (some j)) := by
  obtain ⟨r₀, hr₀, hr₀u, hi, hexec⟩ := h.execStmt_update (y := y) (v := v) hu hc hfind
  have hkey (r : Row) : y.engine.setCol col (.str v) r idCol = r idCol :=
    Function.update_of_ne hid _ _
  have hupc : y.engine.setCol col (.str v) r₀ upcCol = .text u :=
    (Function.update_of_ne hname _ _).trans hr₀u
  rw [hexec, if_neg (h.not_obstructs hr₀ hr₀u hupc (hkey r₀))]
  refine ⟨rfl, ?_⟩
  have hset := h.setRow hr₀ hr₀u hkey hupc (himage r₀ hi) hlen fun r hr hne heq =>
    hne (congrArg (· idCol) (h.sole r hr r₀ hr₀ (heq.trans hr₀u.symm)))
  rwa [Function.update_idem] at hset

theorem effect_replace (h : Represents db m) {c u v : Str} (hc : c ∈ mappedColumns)
    (hfind : itemImages.find c = some ⟨imageCol, .blob, true⟩) (hlen : v.length + 61 < mb 12) :
    Effect (y.engine.execStmt catalog (updateStmt .images c v u) db) (.done, m.replace u v) := by
  unfold ImageMap.replace
  cases hu : m u with
  | none =>
    rw [if_pos rfl, execStmt_update_none (u := .images) hc hfind h.keyed
      (updatedRow_eq_none_iff.mpr (h.eq_none_iff.mp hu))]
    exact ⟨rfl, h⟩
  | some i =>
    rw [if_neg (by simp)]
    exact effect_set h hc hfind (by decide) (by decide) hu hlen fun r _ => Function.update_self ..

theorem effect_extra (h : Represents db m) {c u v : Str} (hc : c ∈ mappedColumns)
    (hfind : itemImages.find c = some ⟨lit "Extra", .text, false⟩) :
    Effect (y.engine.execStmt catalog (updateStmt .images c v u) db) (.done, m) := by
  cases hu : m u with
  | none =>
    rw [execStmt_update_none (u := .images) hc hfind h.keyed
      (updatedRow_eq_none_iff.mpr (h.eq_none_iff.mp hu))]
    exact ⟨rfl, h⟩
  | some i =>
    have hset := effect_set (y := y) (v := v) h hc hfind (by decide) (by decide) hu
      (h.bound u i hu).1 fun r hi => (Function.update_of_ne (by decide) _ _).trans hi
    rwa [← hu, Function.update_eq_self] at hset

theorem effect_move (h : Represents db m) {c u v : Str} (hc : c ∈ mappedColumns)
    (hfind : itemImages.find c = some (textColumn "UPC")) :
    Effect (y.engine.execStmt catalog (updateStmt .images c v u) db) (m.move u v) := by
  unfold ImageMap.move
  cases hu : m u with
  | none =>
    rw [if_pos (.inl rfl), execStmt_update_none (u := .images) hc hfind h.keyed
      (updatedRow_eq_none_iff.mpr (h.eq_none_iff.mp hu))]
    exact ⟨rfl, h⟩
  | some i =>
    obtain ⟨r₀, hr₀, hname, hi, hexec⟩ := h.execStmt_update (y := y) (v := v) hu hc hfind
    have hid (r : Row) : y.engine.setCol (textColumn "UPC") (.str v) r idCol = r idCol :=
      Function.update_of_ne (by decide) _ _
    have hupc : y.engine.setCol (textColumn "UPC") (.str v) r₀ upcCol = .text v :=
      Function.update_self ..
    have himage : y.engine.setCol (textColumn "UPC") (.str v) r₀ imageCol = .text i :=
      (Function.update_of_ne (by decide) _ _).trans hi
    have hmoved := h.setRow hr₀ hname hid hupc himage (h.bound u i hu).1
    rw [hexec]
    by_cases hv : v = u
    · -- the binding stays where it is
      subst hv
      rw [if_neg (h.not_obstructs hr₀ hname hupc (hid r₀)), if_pos (.inr rfl)]
      refine ⟨rfl, ?_⟩
      have hset := hmoved fun r hr hne heq =>
        hne (congrArg (· idCol) (h.sole r hr r₀ hr₀ (heq.trans hname.symm)))
      rwa [Function.update_idem, ← hu, Function.update_eq_self] at hset
    · rw [if_neg (show ¬ (some i = none ∨ v = u) by simp [hv])]
      cases hother : m v with
      | none =>
        have hfree := h.eq_none_iff.mp hother
        have hobstructs : ¬ (db imagesTable).obstructs itemImages
            (y.engine.setCol (textColumn "UPC") (.str v) r₀) = true := by
          rw [obstructs_image hupc]
          rintro ⟨r, hr, -, heq⟩
          exact hfree r hr heq
        rw [if_neg hobstructs, if_pos rfl]
        exact ⟨rfl, hmoved fun r hr _ => hfree r hr⟩
      | some i' =>
        obtain ⟨-, r, hr, hru⟩ := h.bound v i' hother
        have hne : r idCol ≠ r₀ idCol := fun hsame => hv
          (Value.text.inj (hru.symm.trans (h.keyed.eq_of_key hr hr₀ hsame ▸ hname)))
        rw [if_pos ((obstructs_image hupc).mpr ⟨r, hr, (hid r₀).symm ▸ hne, hru⟩),
          if_neg (by simp)]
        exact ⟨rfl, h⟩

/-- **An update of the images**, by its key. -/
theorem effect_updateImage (h : Represents db m) {k : Commands} {c u v : Str}
    (hc : getMapping (some k) = some c) (hlen : v.length + 61 < mb 12) :
    Effect (y.engine.execStmt catalog (updateStmt .images c v u) db)
      (m.serve (.update u (some k) v)) := by
  have hmem := getMapping_mem hc
  have hfind := find_imageColumn hc
  cases k with
  | images => exact effect_replace h hmem hfind hlen
  | itemupc => exact effect_move h hmem hfind
  | imageextra => exact effect_extra h hmem hfind
  | _ =>
    rw [execStmt_update_unknown (u := .images) hmem hfind]
    exact ⟨rfl, h⟩

/-! ## One call -/

/-- A call that writes, by what its statement is to the map. -/
theorem ImageCall.serve_of_effect {c : ImageCall} {w : World} {p : ImageAnswer × ImageMap}
    {cap : Nat} {text : Str} {b : Built} (hget : ∀ upc, c ≠ .get upc)
    (hprog : c.prog y = runStatement y cap text) (htext : text = b.text y)
    (hlen : text.length < cap) (hfault : y.fault w.tick = none)
    (hq : ∀ f ∈ b.asGiven, QuoteFree f) (hn : b.numbers = [])
    (heffect : Effect (y.engine.execStmt catalog (b.stmt y) w.srv.db) p) :
    (c.serve y w).1 = p.1 ∧ Represents (c.serve y w).2.srv.db p.2 := by
  have hexec : y.engine.exec catalog text w.srv.db
      = y.engine.execStmt catalog (b.stmt y) w.srv.db := by
    rw [htext]
    exact b.exec_eq y hq (by rw [hn]; exact fun _ => nofun) w.srv.db
  obtain ⟨hval, hdb⟩ := run_runStatement_of_exec hlen hfault hexec
  unfold ImageCall.serve ImageCall.answer
  rw [hprog]
  refine ⟨?_, by dsimp only; rw [hdb]; exact heffect.represents⟩
  dsimp only
  rw [hval, heffect.answer]
  by_cases herr : (y.engine.execStmt catalog (b.stmt y) w.srv.db).err = none
  · rw [if_pos herr, if_pos herr]
    cases c with
    | get upc => exact absurd rfl (hget upc)
    | _ => rfl
  · rw [if_neg herr, if_neg herr]
    rfl

theorem length_addImageSql (upc image : Str) :
    image.length + 61 ≤ (addImageSql upc image).length := by
  simp [addImageSql, lit, sprintf]

theorem length_updateItemImageSql (c upc image : Str) :
    image.length + 61 ≤ (updateItemImageSql c upc image).length := by
  simp [updateItemImageSql, imagesTable, lit, sprintf]
  omega

/-- The rows of a UPC: one, or none. -/
theorem Represents.filter_upc (h : Represents db m) {p : Row → Bool} {u : Str}
    (hp : ∀ r, p r = true ↔ r upcCol = .text u) :
    ((db imagesTable).rows.filter p).map (fun r => r imageCol) = (m u).toList.map Value.text := by
  cases hu : m u with
  | none =>
    have hnil : (db imagesTable).rows.filter p = [] := List.filter_eq_nil_iff.mpr
      fun r hr hpr => h.eq_none_iff.mp hu r hr ((hp r).mp hpr)
    rw [hnil]
    rfl
  | some i =>
    obtain ⟨-, r₀, hr₀, hname⟩ := h.bound u i hu
    obtain ⟨i', hi', hm⟩ := h.image_eq hr₀ hname
    obtain rfl : i' = i := Option.some.inj (hm.symm.trans hu)
    obtain ⟨l₁, l₂, hrows⟩ := List.append_of_mem hr₀
    -- no other row has the UPC
    have hother := h.keyed.ne_of_append hrows
    have hnone (l : List Row) (hl : ∀ r ∈ l, r ∈ l₁ ++ l₂) : l.filter p = [] := by
      refine List.filter_eq_nil_iff.mpr fun r hr hpr => hother r (hl r hr) ?_
      have hmem : r ∈ (db imagesTable).rows := by
        rw [hrows]
        rcases List.mem_append.mp (hl r hr) with hr | hr
        · exact List.mem_append_left _ hr
        · exact List.mem_append_right _ (List.mem_cons_of_mem _ hr)
      rw [h.sole r hmem r₀ hr₀ (((hp r).mp hpr).trans hname.symm)]
    rw [hrows, List.filter_append, List.filter_cons, if_pos ((hp r₀).mpr hname),
      hnone l₁ fun r hr => List.mem_append_left _ hr, hnone l₂ fun r hr => List.mem_append_right _ hr]
    exact congrArg (fun v => [v]) hi'

/-- What `SELECT IMAGE FROM ItemImages` shows. -/
theorem Represents.exec_getImage (h : Represents db m) {upc : Str} (hq : QuoteFree upc) :
    y.engine.exec catalog (getImageForUpcSql upc) db =
      ⟨db, (m upc).toList.map fun i => [(lit "Image", some i)], none⟩ := by
  have hexec := (Built.getImageForUpc upc).exec_eq y (by simpa [Built.asGiven] using hq)
    (fun _ => nofun) db
  have hrows := h.filter_upc (p := y.engine.hits catalog db itemImages (UpdateTable.images.named upc))
    fun r => UpdateTable.hits_named (u := .images) y
  have hperm := y.engine.scan_perm itemImages (Built.stmt y (.getImageForUpc upc))
    ((db imagesTable).rows.filter (y.engine.hits catalog db itemImages (UpdateTable.images.named upc)))
  have hscan : (y.engine.scan itemImages (Built.stmt y (.getImageForUpc upc))
      ((db imagesTable).rows.filter (y.engine.hits catalog db itemImages
        (UpdateTable.images.named upc)))).map (fun r => r imageCol)
      = (m upc).toList.map Value.text := by
    have hmap := hperm.map fun r : Row => r imageCol
    rw [hrows] at hmap
    cases hu : m upc with
    | none =>
      rw [hu] at hmap
      exact List.perm_nil.mp hmap
    | some i =>
      rw [hu] at hmap
      exact List.perm_singleton.mp hmap
  have hshown : (y.engine.exec catalog (getImageForUpcSql upc) db)
      = ⟨db, (y.engine.scan itemImages (Built.stmt y (.getImageForUpc upc))
          ((db imagesTable).rows.filter (y.engine.hits catalog db itemImages
            (UpdateTable.images.named upc)))).map fun r => [(lit "Image", (r imageCol).render)],
          none⟩ := hexec
  rw [hshown]
  have hrender : ∀ l : List Row, l.map (fun r => [(lit "Image", (r imageCol).render)])
      = (l.map fun r => r imageCol).map fun v => [(lit "Image", v.render)] := fun l => by
    rw [List.map_map]
    rfl
  rw [hrender, hscan, List.map_map]
  rfl

/-- The array that `__get_image_for_upc` leaves. -/
theorem serve_get (hfault : ∀ t, y.fault t = none) {w : World} {upc : Str}
    (h : Represents w.srv.db m) (hq : QuoteFree upc)
    (hlen : (getImageForUpcSql upc).length < 1024) :
    (ImageCall.serve y w (.get upc)).1 = .shown (some (imageArray (m upc))) ∧
      (ImageCall.serve y w (.get upc)).2.srv.db = w.srv.db := by
  have hexec := h.exec_getImage (y := y) hq
  have hrows : shownRows y (getImageForUpcSql upc) w.srv.db
      = (m upc).toList.map fun i => [(lit "Image", some i)] := congrArg Result.rows hexec
  -- the one row fits all arrays
  have hroom : ∀ row ∈ (m upc).toList.map fun i => [(lit "Image", some i)],
      (renderRow row).length < mb 12 := by
    intro row hrow
    obtain ⟨i, hi, rfl⟩ := List.mem_map.mp hrow
    obtain ⟨hi, -⟩ := h.bound upc i (Option.mem_toList.mp hi)
    have hrender : (renderRow [(lit "Image", some i)]).length = i.length + 16 := by
      simp [renderRow, lit, sprintf]
    omega
  have hrendered : (rendered ((m upc).toList.map fun i => [(lit "Image", some i)])).length < mb 12 := by
    cases hu : m upc with
    | none => decide
    | some i =>
      rw [hu] at hroom
      simpa [rendered] using hroom _ (List.mem_singleton_self _)
  have hcollected := @collected_length (mb 14) (by decide)
    ((m upc).toList.map fun i => [(lit "Image", some i)])
  obtain ⟨hval, hvalue, hdb⟩ := @collectRows_fits y (w.listing []) ⟨mb 12, mb 14, mb 14, mb 15⟩
    (getImageForUpcSql upc) (hfault _) ⟨w.nextBuf, []⟩ (congrArg Result.err hexec)
    (show (collected (mb 14) (shownRows y (getImageForUpcSql upc) w.srv.db)).length < mb 14 by
      rw [hrows, hcollected]
      simp only [mb] at hrendered ⊢
      omega)
    (show (collected (mb 14) (shownRows y (getImageForUpcSql upc) w.srv.db)).length + 2 < mb 15 by
      rw [hrows, hcollected]
      simp only [mb] at hrendered ⊢
      omega)
    (show RowsFit (mb 12) (shownRows y (getImageForUpcSql upc) w.srv.db) by
      rw [hrows]
      exact hroom)
  have hleft : leftInValue (mb 14) (shownRows y (getImageForUpcSql upc) w.srv.db)
      = imageArray (m upc) := by
    rw [hrows]
    refine (leftInValue_eq_iff (by decide) _).mpr ?_
    simp only [mb] at hrendered ⊢
    omega
  have hrun : ((ImageCall.get upc).prog y).run w
      = ⟨((collectRows y ⟨mb 12, mb 14, mb 14, mb 15⟩ ⟨w.nextBuf, []⟩ (getImageForUpcSql upc)).run
          (w.listing [])).val,
        ((collectRows y ⟨mb 12, mb 14, mb 14, mb 15⟩ ⟨w.nextBuf, []⟩ (getImageForUpcSql upc)).run
          (w.listing [])).state,
        .alloc w.nextBuf :: ((collectRows y ⟨mb 12, mb 14, mb 14, mb 15⟩ ⟨w.nextBuf, []⟩
          (getImageForUpcSql upc)).run (w.listing [])).out⟩ := by
    show (getImageForUpc y (some upc)).run w = _
    unfold getImageForUpc
    rw [fmtS_some, run_bind_of_run (run_sprintfInto_of_fits hlen w), run_listInto]
    rfl
  unfold ImageCall.serve ImageCall.answer
  rw [hrun]
  dsimp only
  rw [hval, hvalue, hdb]
  exact ⟨congrArg (fun s => ImageAnswer.shown (some s)) hleft, congrArg Result.db hexec⟩

/-- An update by a key that names no column. -/
theorem ImageMap.serve_unmapped {key : Option Commands} (hkey : getMapping key = none)
    (upc value : Str) : m.serve (.update upc key value) = (.failed, m) := by
  have hmapped : ∀ k ∈ [Commands.images, .itemupc, .imageextra], getMapping (some k) ≠ none := by
    decide
  cases key with
  | none => rfl
  | some k =>
    cases k with
    | images | itemupc | imageextra => exact absurd hkey (hmapped _ (by decide))
    | _ => rfl

/-- An update of the table is one of the map. -/
theorem serve_update (hfault : ∀ t, y.fault t = none) {w : World} {upc value : Str}
    {key : Option Commands} (h : Represents w.srv.db m) (hc : (ImageCall.update upc key value).Fits) :
    (ImageCall.serve y w (.update upc key value)).1 = (m.serve (.update upc key value)).1 ∧
      Represents (ImageCall.serve y w (.update upc key value)).2.srv.db
        (m.serve (.update upc key value)).2 := by
  obtain ⟨hupc, hvalue, hlen⟩ := hc
  cases hkey : getMapping key with
  | none =>
    -- no column: the code returns before it builds a text
    have hprog : (ImageCall.update upc key value).prog y = pure (-1) := by
      show updateItemImage y (some upc) key (some value) = _
      unfold updateItemImage
      rw [hkey]
    rw [ImageMap.serve_unmapped hkey]
    unfold ImageCall.serve ImageCall.answer
    rw [hprog]
    exact ⟨rfl, h⟩
  | some c =>
    obtain ⟨k, rfl⟩ : ∃ k, key = some k := by
      cases key with
      | none => cases hkey
      | some k => exact ⟨k, rfl⟩
    have hprog : (ImageCall.update upc (some k) value).prog y
        = runStatement y (mb 12) (updateItemImageSql c upc value) := by
      show updateItemImage y (some upc) (some k) (some value) = _
      unfold updateItemImage
      rw [hkey]
      rfl
    have hset : (getMapping (some k)).isSome = true := by rw [hkey]; rfl
    have hcol : MappedKey.column ⟨k, hset⟩ = c :=
      Option.some.inj ((Option.some_get hset).trans hkey)
    have hroom := length_updateItemImageSql c upc value
    have hcap := hlen c hkey
    refine ImageCall.serve_of_effect (b := .updateItemImage upc ⟨k, hset⟩ value) (by simp)
      hprog (by rw [← hcol]; rfl) hcap (hfault _)
      (by simpa [Built.asGiven] using ⟨hvalue, hupc⟩) rfl ?_
    show Effect (y.engine.execStmt catalog (updateStmt .images (MappedKey.column ⟨k, hset⟩) value
      upc) w.srv.db) _
    rw [hcol]
    exact effect_updateImage h hkey (by omega)

/-- **One call** on the table is one call on the map. -/
theorem serve_refines (hfault : ∀ t, y.fault t = none) {w : World} {c : ImageCall}
    (h : Represents w.srv.db m) (hc : c.Fits) :
    (c.serve y w).1 = (m.serve c).1 ∧ Represents (c.serve y w).2.srv.db (m.serve c).2 := by
  cases c with
  | add upc image =>
    obtain ⟨hupc, himage, hlen⟩ := hc
    refine ImageCall.serve_of_effect (b := .addImage upc image) (by simp) rfl rfl hlen
      (hfault _) (by simpa [Built.asGiven] using ⟨hupc, himage⟩) rfl ?_
    rw [execStmt_addImage h]
    show Effect _ (m.add upc image)
    unfold ImageMap.add
    -- a UPC that is there already violates the unique column, and the map refuses it
    by_cases hu : m upc = none
    · rw [if_pos hu, if_pos hu]
      have hroom := length_addImageSql upc image
      exact ⟨rfl, h.insert hu (by omega) (newImage_upc ..) rfl rfl⟩
    · rw [if_neg hu, if_neg hu]
      exact ⟨rfl, h⟩
  | update upc key value => exact serve_update hfault h hc
  | delete upc =>
    obtain ⟨hupc, hlen⟩ := hc
    refine ImageCall.serve_of_effect (b := .deleteImage upc) (by simp) rfl rfl hlen
      (hfault _) (by simpa [Built.asGiven] using hupc) rfl ?_
    rw [execStmt_deleteImage]
    refine ⟨rfl, h.delete upc fun r => ?_⟩
    rw [Bool.not_eq_true', ← Bool.not_eq_true]
    exact (UpdateTable.hits_named (u := .images) y).not
  | get upc =>
    obtain ⟨hupc, hlen⟩ := hc
    obtain ⟨hanswer, hdb⟩ := serve_get hfault h hupc hlen
    exact ⟨hanswer, hdb ▸ h⟩

/-- **The image functions are a map**: in every run from the empty table the callers see
what they would see of the map, and the table is left with the bindings of the map. -/
theorem images_refine (hfault : ∀ t, y.fault t = none) {w : World} {calls : List ImageCall}
    (hempty : (w.srv.db imagesTable).rows = []) (hcalls : ∀ c ∈ calls, c.Fits) :
    (answers (ImageCall.serve y) w calls).1 = (answers ImageMap.serve (fun _ => none) calls).1 ∧
      Represents (answers (ImageCall.serve y) w calls).2.srv.db
        (answers ImageMap.serve (fun _ => none) calls).2 := by
  have hstep (w : World) (m : ImageMap) (c : ImageCall) (h : Represents w.srv.db m)
      (hc : c.Fits) : (ImageCall.serve y w c).1 = (m.serve c).1 ∧
        Represents (ImageCall.serve y w c).2.srv.db (m.serve c).2 :=
    serve_refines hfault h hc
  exact answers_of_simulation (R := fun (w : World) (m : ImageMap) => Represents w.srv.db m)
    hstep (represents_empty hempty) hcalls

instance (c : ImageCall) : Decidable c.Fits := by
  unfold ImageCall.Fits QuoteFree
  cases c <;> infer_instance

/-- Two images, the second of which gives way to the first one's new UPC. -/
def imageCalls : List ImageCall :=
  [.add (lit "1") (lit "a"), .add (lit "2") (lit "b"), .update (lit "1") (some .itemupc) (lit "2"),
    .delete (lit "2"), .update (lit "1") (some .itemupc) (lit "2"), .get (lit "2"), .get (lit "1")]

theorem images_refine_two :
    (answers (ImageCall.serve quietSys) (.before initDataRoot .empty) imageCalls).1
        = (answers ImageMap.serve (fun _ => none) imageCalls).1 ∧
      Represents (answers (ImageCall.serve quietSys) (.before initDataRoot .empty)
        imageCalls).2.srv.db (answers ImageMap.serve (fun _ => none) imageCalls).2 :=
  images_refine (fun _ => rfl) rfl (by decide +kernel)

end Thor
