import Lucie.Foundation.Exact
import Lucie.X11.Clipboard

/-!
# Selections that we own

What is written to a selection is read back without asking the server, as long as we own the
selection. A text comes back as it was, and so do the bytes of an image. An image is stored under
the name for a PNG whatever its format is, so it comes back as one.
-/

set_option autoImplicit false

namespace Lucie.X11

open Foundation

/-- `ImageFormat`, with all the formats that the clipboard has names for. -/
inductive ImageFormat
  | png
  | jpeg
  | webp
  | gif
  | svg
  | bmp
  | tiff
  | ico
  deriving DecidableEq

/-- `Image`. -/
structure Image where
  id : ℕ
  format : ImageFormat
  bytes : ByteArray

/-- `ClipboardString`. -/
structure ClipboardString where
  text : String
  metadata : Option String

/-- `ClipboardEntry`, of the kinds that the clipboard makes. -/
inductive ClipboardEntry
  | string (string : ClipboardString)
  | image (image : Image)

/-- `ClipboardItem`. -/
structure ClipboardItem where
  entries : List ClipboardEntry

/-- `ClipboardItem::new_string`. -/
def ClipboardItem.newString (text : String) : ClipboardItem := ⟨[.string ⟨text, none⟩]⟩

/-- `ClipboardItem::new_image`. -/
def ClipboardItem.newImage (image : Image) : ClipboardItem := ⟨[.image image]⟩

/-- `Error`. -/
inductive ClipboardError
  | contentNotAvailable
  | clipboardOccupied
  | conversionFailure
  | unknown (description : String)

/-- The clipboard and the selections that the server says we own. -/
structure Clipboard where
  inner : Inner
  owner : ClipboardKind → Bool

namespace Clipboard

/-- `Inner::write`, which asks the server for the selection. -/
def write (clipboard : Clipboard) (data : List ClipboardData) (selection : ClipboardKind) :
    Clipboard :=
  ⟨clipboard.inner.setSelection selection (some data),
    Function.update clipboard.owner selection true⟩

/-- The search of `Inner::read` for the first data that has one of the formats. -/
def search (dataList : List ClipboardData) (formats : List Atom) : Option ClipboardData :=
  dataList.findSome? fun data => formats.findSome? fun format =>
    if format = data.format then some data else none

/-- `Inner::read`, with what it reads from another owner. -/
def read (clipboard : Clipboard) (other : Except ClipboardError ClipboardData)
    (formats : List Atom) (selection : ClipboardKind) : Except ClipboardError ClipboardData :=
  if clipboard.owner selection then
    match (clipboard.inner.selectionOf selection).bind (search · formats) with
    | some data => .ok data
    | none => .error .contentNotAvailable
  else other

/-- `Clipboard::set_text`. -/
def setText (clipboard : Clipboard) (message : String) (selection : ClipboardKind) : Clipboard :=
  clipboard.write [⟨message.toByteArray, .utf8String⟩] selection

/-- `Clipboard::set_image`, which does not use the name for the format of the image. -/
def setImage (clipboard : Clipboard) (image : Image) (selection : ClipboardKind) : Clipboard :=
  let _format : Atom := match image.format with
    | .png => .pngMime
    | .jpeg => .jpegMime
    | .webp => .webpMime
    | .gif => .gifMime
    | .svg => .svgMime
    | .bmp => .bmpMime
    | .tiff => .tiffMime
    | .ico => .icoMime
  clipboard.write [⟨image.bytes, .pngMime⟩] selection

/-- The names of the image formats, and the formats. -/
def imageFormats : List (Atom × ImageFormat) :=
  [(.pngMime, .png), (.jpegMime, .jpeg), (.webpMime, .webp), (.gifMime, .gif), (.svgMime, .svg),
    (.bmpMime, .bmp), (.tiffMime, .tiff)]

/-- The names of the text formats. -/
def textFormatAtoms : List Atom :=
  [.utf8String, .utf8Mime0, .utf8Mime1, .string, .text, .textMimeUnknown]

/-- What `get_any` makes of the data that it read. -/
def itemOf (hash : ByteArray → ℕ) (result : ClipboardData) :
    Except ClipboardError ClipboardItem :=
  match imageFormats.find? fun format => result.format = format.1 with
  | some (_, format) => .ok (.newImage ⟨hash result.bytes, format, result.bytes⟩)
  | none =>
    if result.format = .string then
      -- every byte is a character in ISO Latin-1
      .ok (.newString (String.ofList (result.bytes.toList.map fun c => Char.ofNat c.toNat)))
    else
      match String.fromUTF8? result.bytes with
      | some text => .ok (.newString text)
      | none => .error .conversionFailure

/-- `Clipboard::get_any`. -/
def getAny (hash : ByteArray → ℕ) (clipboard : Clipboard)
    (other : Except ClipboardError ClipboardData) (selection : ClipboardKind) :
    Except ClipboardError ClipboardItem := do
  itemOf hash (← clipboard.read other (imageFormats.map Prod.fst ++ textFormatAtoms) selection)

/-- `serve_requests` with a `SelectionClear` event. -/
def selectionClear (clipboard : Clipboard) (selection : Atom) : Clipboard :=
  match Inner.kindOf selection with
  | some kind => { clipboard with inner := clipboard.inner.setSelection kind none }
  | none => clipboard

end Clipboard

/-- What happens to the clipboard. -/
inductive ClipboardAction
  | setText (message : String) (selection : ClipboardKind)
  | setImage (image : Image) (selection : ClipboardKind)
  /-- The server gives the selection to another client. -/
  | lose (selection : ClipboardKind)
  | selectionClear (selection : Atom)

/-- What was written. -/
inductive Written
  | text (text : String)
  | image (image : Image)

/-- A clipboard with what was written to its selections last and not cleared since. -/
structure ClipboardRun where
  clipboard : Clipboard
  written : ClipboardKind → Option Written

namespace ClipboardRun

/-- A clipboard that was just made. -/
def new : ClipboardRun := ⟨⟨.new, fun _ => false⟩, fun _ => none⟩

/-- One step. -/
def step (s : ClipboardRun) : ClipboardAction → Option ClipboardRun
  | .setText message selection =>
    some ⟨s.clipboard.setText message selection,
      Function.update s.written selection (some (.text message))⟩
  | .setImage image selection =>
    some ⟨s.clipboard.setImage image selection,
      Function.update s.written selection (some (.image image))⟩
  | .lose selection =>
    some { s with clipboard := { s.clipboard with
      owner := Function.update s.clipboard.owner selection false } }
  | .selectionClear selection =>
    some ⟨s.clipboard.selectionClear selection, match Inner.kindOf selection with
      | some kind => Function.update s.written kind none
      | none => s.written⟩

/-- The same text, or an image with the same bytes and the same format. -/
def Returns (result : Except ClipboardError ClipboardItem) : Option Written → Prop
  | some (.text text) => result = .ok (.newString text)
  | some (.image image) => ∃ id, result = .ok (.newImage { image with id })
  | none => result = .error .contentNotAvailable

/-- `get_any` returns what was written to a selection that we own, and nothing else. -/
def ReadsBack (hash : ByteArray → ℕ) (s : ClipboardRun) : Prop :=
  ∀ selection other, s.clipboard.owner selection = true →
    Returns (s.clipboard.getAny hash other selection) (s.written selection)

/-- An image that is written is a PNG. -/
def WritesPng : ClipboardAction → Prop
  | .setImage image _ => image.format = .png
  | _ => True

/-! ## Reading back -/

variable {hash : ByteArray → ℕ} {s s' : ClipboardRun}

/-- A selection that we own is looked up in its data. -/
theorem getAny_of_owner {clipboard : Clipboard} {selection : ClipboardKind}
    {data : Option (List ClipboardData)} (howner : clipboard.owner selection = true)
    (hdata : clipboard.inner.selectionOf selection = data)
    (other : Except ClipboardError ClipboardData) :
    clipboard.getAny hash other selection =
      match data.bind (Clipboard.search · (Clipboard.imageFormats.map Prod.fst ++
        Clipboard.textFormatAtoms)) with
      | some data => Clipboard.itemOf hash data
      | none => .error .contentNotAvailable := by
  rw [Clipboard.getAny, Clipboard.read, if_pos howner, hdata]
  cases data.bind (Clipboard.search · (Clipboard.imageFormats.map Prod.fst ++
    Clipboard.textFormatAtoms)) <;> rfl

theorem search_singleton {data : ClipboardData} {formats : List Atom}
    (hformat : data.format ∈ formats) : Clipboard.search [data] formats = some data := by
  have hinner : (formats.findSome? fun format =>
      if format = data.format then some data else none) = some data := by
    induction formats with
    | nil => cases hformat
    | cons format formats ih =>
      rw [List.findSome?_cons]
      split_ifs with hsame
      · rfl
      · exact ih ((List.mem_cons.mp hformat).resolve_left (Ne.symm hsame))
  rw [Clipboard.search, List.findSome?_cons, hinner]

/-- Data in a known format is found where it was written. -/
theorem getAny_write (clipboard : Clipboard) (selection : ClipboardKind) {data : ClipboardData}
    (hformat : data.format ∈ Clipboard.imageFormats.map Prod.fst ++ Clipboard.textFormatAtoms)
    (other : Except ClipboardError ClipboardData) :
    (clipboard.write [data] selection).getAny hash other selection =
      Clipboard.itemOf hash data := by
  rw [getAny_of_owner (Function.update_self ..) (Inner.selectionOf_setSelection_self ..),
    Option.bind_some, search_singleton hformat]

/-- A text is the same when it was stored as bytes. -/
theorem itemOf_text (text : String) :
    Clipboard.itemOf hash ⟨text.toByteArray, .utf8String⟩ = .ok (.newString text) := by
  have hdecode : String.fromUTF8? text.toByteArray = some text := dif_pos text.isValidUTF8
  have hfind : Clipboard.imageFormats.find? (fun format => Atom.utf8String = format.1) = none := by
    decide
  simp only [Clipboard.itemOf, hfind, hdecode, reduceCtorEq, if_false]

theorem itemOf_png (bytes : ByteArray) : Clipboard.itemOf hash ⟨bytes, .pngMime⟩ =
    .ok (.newImage ⟨hash bytes, .png, bytes⟩) := rfl

/-- What is read of a selection depends on the selection alone. -/
theorem getAny_congr {clipboard clipboard' : Clipboard} {selection : ClipboardKind}
    (howner : clipboard'.owner selection = true) (howner' : clipboard.owner selection = true)
    (hdata : clipboard'.inner.selectionOf selection = clipboard.inner.selectionOf selection)
    (other : Except ClipboardError ClipboardData) :
    clipboard'.getAny hash other selection = clipboard.getAny hash other selection := by
  rw [getAny_of_owner howner hdata, getAny_of_owner howner' rfl]

/-- A write is read back exactly if what was stored is. The other selections are as before. -/
theorem ReadsBack.write_iff (h : s.ReadsBack hash) (data : ClipboardData)
    (hformat : data.format ∈ Clipboard.imageFormats.map Prod.fst ++ Clipboard.textFormatAtoms)
    (written : Written) (selection : ClipboardKind) :
    ReadsBack hash ⟨s.clipboard.write [data] selection,
        Function.update s.written selection (some written)⟩ ↔
      Returns (Clipboard.itemOf hash data) (some written) := by
  constructor
  · intro h'
    have hselection := h' selection (.error .contentNotAvailable) (Function.update_self ..)
    rw [getAny_write _ _ hformat] at hselection
    simpa using hselection
  · intro hreturns kind other howner
    obtain rfl | hne := eq_or_ne kind selection
    · dsimp only
      rw [getAny_write _ _ hformat, Function.update_self]
      exact hreturns
    · have howner' : s.clipboard.owner kind = true := by
        simpa only [Clipboard.write, Function.update_of_ne hne] using howner
      dsimp only
      rw [Function.update_of_ne hne, getAny_congr howner howner'
        (Inner.selectionOf_setSelection_of_ne _ hne _)]
      exact h kind other howner'

/-- A selection that was lost is not read, and the others are as before. -/
theorem ReadsBack.lose (h : s.ReadsBack hash) (selection : ClipboardKind) :
    ReadsBack hash { s with clipboard := { s.clipboard with
      owner := Function.update s.clipboard.owner selection false } } := by
  intro kind other howner
  obtain rfl | hne := eq_or_ne kind selection
  · simp at howner
  · have howner' : s.clipboard.owner kind = true := by
      simpa only [Function.update_of_ne hne] using howner
    dsimp only
    rw [getAny_congr howner howner' rfl]
    exact h kind other howner'

/-- A selection that was cleared has nothing to read. -/
theorem ReadsBack.selectionClear (h : s.ReadsBack hash) (kind : ClipboardKind) :
    ReadsBack hash ⟨{ s.clipboard with inner := s.clipboard.inner.setSelection kind none },
      Function.update s.written kind none⟩ := by
  intro other reply howner
  have howner' : s.clipboard.owner other = true := howner
  dsimp only
  obtain rfl | hne := eq_or_ne other kind
  · rw [getAny_of_owner howner (Inner.selectionOf_setSelection_self ..), Function.update_self]
    rfl
  · rw [Function.update_of_ne hne, getAny_congr howner howner'
      (Inner.selectionOf_setSelection_of_ne _ hne _)]
    exact h other reply howner'

theorem ReadsBack.step_iff (h : s.ReadsBack hash) {a : ClipboardAction}
    (hstep : s.step a = some s') : s'.ReadsBack hash ↔ WritesPng a := by
  cases a with
  | setText message selection =>
    cases hstep
    have hwrite := h.write_iff ⟨message.toByteArray, .utf8String⟩
      (by simp [Clipboard.textFormatAtoms]) (.text message) selection
    exact iff_of_true (hwrite.mpr (itemOf_text message)) trivial
  | setImage image selection =>
    cases hstep
    refine (h.write_iff _ (by simp [Clipboard.imageFormats]) (.image image) selection).trans ?_
    rw [itemOf_png]
    constructor
    · rintro ⟨id, hitem⟩
      injection hitem with hitem
      injection hitem with hentries
      injection hentries with hentry
      injection hentry with himage
      exact (congrArg Image.format himage).symm
    · intro hpng
      refine ⟨hash image.bytes, ?_⟩
      rw [← (show image.format = .png from hpng)]
  | lose selection =>
    cases hstep
    exact iff_of_true (h.lose selection) trivial
  | selectionClear selection =>
    cases hstep
    refine iff_of_true ?_ trivial
    cases hkind : Inner.kindOf selection with
    | none =>
      simp only [Clipboard.selectionClear, hkind]
      exact h
    | some kind =>
      simp only [Clipboard.selectionClear, hkind]
      exact h.selectionClear kind

theorem readsBack_new : new.ReadsBack hash := nofun

/-- In every run each selection that we own is read back as it was written, exactly if the images
that are written are PNGs. -/
theorem readsBack_iff_writesPng (hash : ByteArray → ℕ) (actions : List ClipboardAction) :
    AllStates step (ReadsBack hash) new actions ↔ AllSteps step (fun _ => WritesPng) new actions :=
  allStates_iff_allSteps (fun _ => True) (fun _ _ _ _ _ => trivial)
    (fun _ _ _ _ h hstep => h.step_iff hstep) trivial readsBack_new actions

/-- A JPEG comes back as a PNG. -/
theorem not_readsBack_jpeg : ¬∀ (hash : ByteArray → ℕ) (actions : List ClipboardAction),
    AllStates step (ReadsBack hash) new actions := by
  intro h
  have hall := h ByteArray.size [.setImage ⟨9, .jpeg, "JFIF".toByteArray⟩ .clipboard]
  obtain ⟨id, hitem⟩ := hall.2 _ rfl .clipboard (.error .contentNotAvailable) rfl
  injection hitem with hitem
  injection hitem with hentries
  injection hentries with hentry
  injection hentry with himage
  cases congrArg Image.format himage

end ClipboardRun

end Lucie.X11
