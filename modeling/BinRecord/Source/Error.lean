/-
What can be wrong with a path or with what it leads to, and how it is reported.
-/
import BinRecord.Diagnostic
import BinRecord.Text.Decoding

namespace BinRecord

/-- Why a path does not lead to bytes. -/
inductive PathFault where
  | missing
  | notDirectory
  | isDirectory
  | notMappable
  deriving DecidableEq, Repr

namespace PathFault

/-- The system's number for a fault. -/
def number : PathFault → Nat
  | missing => 2
  | notMappable => 19
  | notDirectory => 20
  | isDirectory => 21

/-- The system's words for a fault. -/
def text : PathFault → String
  | missing => "No such file or directory"
  | notMappable => "No such device"
  | notDirectory => "Not a directory"
  | isDirectory => "Is a directory"

/-- The system's report on a path. A file that was opened but cannot be mapped is not named. -/
def message (f : PathFault) (path : String) : String :=
  let report := s!"[Errno {f.number}] {f.text}"
  if f = notMappable then report else s!"{report}: {Text.quote path}"

end PathFault

/-- What is wrong with a source of bytes, or of schema text. -/
inductive SourceFault where
  | path (fault : PathFault)
  | notText (malformed : Text.Malformed)
  deriving DecidableEq, Repr

/-- A fault of the source at a path. -/
structure SourceError where
  path : String
  fault : SourceFault
  deriving DecidableEq, Repr

/-- How the error is shown. -/
def SourceError.diagnostic (e : SourceError) : Diagnostic :=
  let cause := match e.fault with
    | .path fault => fault.message e.path
    | .notText malformed => malformed.message
  ⟨.unreadableSource, e.path, none, [cause]⟩

end BinRecord
