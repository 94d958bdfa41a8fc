/-
Finding the layout of a header. Layouts are tried in order; one that does not recognize the magic is
passed over, and any other fault of a layout is final.
-/
import BinRecord.Header.BinaryLayout
import BinRecord.Header.TextLayout

namespace BinRecord

/-- A layout of headers. -/
inductive HeaderLayout where
  | text (layout : TextLayout)
  | binary (layout : BinaryLayout)
  deriving DecidableEq, Repr

namespace HeaderLayout

/-- The name of a layout. -/
def name : HeaderLayout → String
  | text layout => layout.name
  | binary layout => layout.name

/-- Decodes the header that starts at `start` in `data`, and says how many bytes it takes. -/
def decode : HeaderLayout → Bytes → Nat → Except HeaderFailure (Header × Nat)
  | text layout => layout.decode
  | binary layout => layout.decode

/-- The layouts that are tried when none are given: the plain text layout. -/
def standard : List HeaderLayout := [.text {}]

end HeaderLayout

namespace Header

/-- Tries layouts in order; `passed` holds those that did not recognize the header, the latest
first. -/
def detectFrom (passed : List LayoutMismatch) (data : Bytes) (start : Nat) :
    List HeaderLayout → Except HeaderFailure (Header × Nat)
  | [] => .error (.error ⟨.noLayout passed.reverse, start⟩)
  | layout :: layouts =>
    match layout.decode data start with
    | .error (.error ⟨.unknownMagic fault, _⟩) =>
      detectFrom (⟨layout.name, fault⟩ :: passed) data start layouts
    | result => result

/-- Decodes the header that starts at `start` in `data` by the first layout that recognizes it, and
says how many bytes it takes. -/
def detect (layouts : List HeaderLayout) (data : Bytes) (start : Nat) :
    Except HeaderFailure (Header × Nat) :=
  detectFrom [] data start layouts

end Header

end BinRecord
