/-
Sources of bytes. A buffer can always be read; a file can be read between being entered and left.
-/
import BinRecord.Source.Files

namespace BinRecord

/-- A source of bytes. `content` holds the bytes of a file while it is entered. -/
inductive Source where
  | buffer (name : String) (content : Bytes)
  | file (path : String) (content : Option Bytes)
  deriving DecidableEq, Repr

namespace Source

/-- A buffer without a name of its own. -/
def ofBytes (bs : Bytes) : Source := buffer "<bytes>" bs

/-- A file that has not been entered. -/
def ofPath (path : String) : Source := file path none

/-- The name of a source. -/
def name : Source → String
  | buffer name _ => name
  | file path _ => path

/-- The bytes of the file at a path. A directory can be opened, but not mapped. -/
def contentAt (look : Lookup) (path : String) : Except SourceError Bytes :=
  match look path with
  | .ok (.file content) => .ok content
  | .ok .directory => .error ⟨path, .path .notMappable⟩
  | .error fault => .error ⟨path, .path fault⟩

/-- Enters a source. -/
def enter (look : Lookup) : Source → Except SourceError Source
  | buffer name content => .ok (buffer name content)
  | file path _ => (contentAt look path).map fun content => file path (some content)

/-- Leaves a source. -/
def leave : Source → Source
  | buffer name content => buffer name content
  | file path _ => file path none

/-- All bytes of a source; none of a file that has not been entered. -/
def view? : Source → Option Bytes
  | buffer _ content => some content
  | file _ content => content

/-- What the use of a file that has not been entered is reported as. -/
def notEntered : String := "LocalFileSource is not entered"

/-- The number of bytes. -/
def size? (s : Source) : Option Nat := s.view?.map List.length

/-- The bytes from an offset on, at most `count` of them. Offsets and ends below zero count from the
end of the source. -/
def read? (s : Source) (offset : Int) (count : Option Int) : Option Bytes :=
  s.view?.map fun bs => bs.slice offset (count.map (offset + ·))

end Source

end BinRecord
