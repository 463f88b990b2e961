import Mathlib.Data.Nat.Notation

/-!
# The X11 clipboard

The data that was written to the three selections is kept until another client owns them. It is a
list, each entry with the atom of its format.
-/

set_option autoImplicit false

namespace Lucie.X11

/-- `Atoms`, by name, and the atoms of other names. -/
inductive Atom
  | clipboard
  | primary
  | secondary
  | clipboardManager
  | saveTargets
  | targets
  | atom
  | incr
  | utf8String
  | utf8Mime0
  | utf8Mime1
  | string
  | text
  | textMimeUnknown
  | pngMime
  | jpegMime
  | webpMime
  | gifMime
  | svgMime
  | bmpMime
  | tiffMime
  | icoMime
  | arboardClipboard
  | other (n : ℕ)
  deriving DecidableEq

/-- `ClipboardKind`. -/
inductive ClipboardKind
  | clipboard
  | primary
  | secondary
  deriving DecidableEq

/-- `ClipboardData`. -/
structure ClipboardData where
  bytes : ByteArray
  format : Atom

/-- `Inner`, with the data of its selections. -/
structure Inner where
  clipboard : Option (List ClipboardData)
  primary : Option (List ClipboardData)
  secondary : Option (List ClipboardData)

namespace Inner

/-- `Inner::new`. -/
def new : Inner := ⟨none, none, none⟩

/-- `Inner::atom_of`. -/
def atomOf : ClipboardKind → Atom
  | .clipboard => .clipboard
  | .primary => .primary
  | .secondary => .secondary

/-- `Inner::kind_of`. -/
def kindOf : Atom → Option ClipboardKind
  | .clipboard => some .clipboard
  | .primary => some .primary
  | .secondary => some .secondary
  | _ => none

/-- `Inner::selection_of`, of which the data is read. -/
def selectionOf (inner : Inner) : ClipboardKind → Option (List ClipboardData)
  | .clipboard => inner.clipboard
  | .primary => inner.primary
  | .secondary => inner.secondary

/-- `Inner::selection_of`, of which the data is written. -/
def setSelection (inner : Inner) (kind : ClipboardKind) (data : Option (List ClipboardData)) :
    Inner :=
  match kind with
  | .clipboard => { inner with clipboard := data }
  | .primary => { inner with primary := data }
  | .secondary => { inner with secondary := data }

@[simp] theorem kindOf_atomOf (kind : ClipboardKind) : kindOf (atomOf kind) = some kind := by
  cases kind <;> rfl

@[simp] theorem selectionOf_setSelection_self (inner : Inner) (kind : ClipboardKind)
    (data : Option (List ClipboardData)) :
    (inner.setSelection kind data).selectionOf kind = data := by
  cases kind <;> rfl

@[simp] theorem selectionOf_setSelection_of_ne (inner : Inner) {kind other : ClipboardKind}
    (h : other ≠ kind) (data : Option (List ClipboardData)) :
    (inner.setSelection kind data).selectionOf other = inner.selectionOf other := by
  cases kind <;> cases other <;> first
    | rfl
    | exact absurd rfl h

end Inner

end Lucie.X11
