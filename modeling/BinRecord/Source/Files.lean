/-
Files and directories below a working directory, and the paths that lead to them. A path is a list
of names between slashes; empty names and single dots stay in place, two dots lead up, and a name
can only follow a directory.
-/
import BinRecord.Bytes
import BinRecord.Source.Error
import BinRecord.Text.Split

namespace BinRecord

/-- What a path leads to. -/
inductive FileEntry where
  | file (content : Bytes)
  | directory
  deriving DecidableEq, Repr

/-- How paths are looked up. -/
abbrev Lookup := String → Except PathFault FileEntry

/-- The files and directories below a working directory, by their paths from there. Whatever stands
above another is a directory. -/
structure Files where
  entries : List (String × FileEntry)

namespace Files

/-- What stands at some names from the working directory. -/
def entryAt (files : Files) (names : List String) : Option FileEntry :=
  let inside (path : String) : Bool := ("/".intercalate names ++ "/").isPrefixOf path
  if names.isEmpty then some .directory
  else
    match files.entries.lookup ("/".intercalate names) with
    | some entry => some entry
    | none => if files.entries.any (inside ·.1) then some .directory else none

/-- Follows names from a place that has been reached. Gives the names of the place that they lead
to; none for a place above the working directory, of which nothing is known but that it is a
directory. -/
def follow (files : Files) :
    Option (List String) → List String → Except PathFault (Option (List String))
  | place, [] => .ok place
  | none, name :: names =>
    if name = "" || name = "." || name = ".." then follow files none names else .error .missing
  | some place, name :: names =>
    match files.entryAt place with
    | none => .error .missing
    | some (.file _) => .error .notDirectory
    | some .directory =>
      if name = "" || name = "." then follow files (some place) names
      else if name = ".." then
        follow files (if place.isEmpty then none else some place.dropLast) names
      else follow files (some (place ++ [name])) names

/-- The names of the place that a path leads to; a path from the root leads above the working
directory. -/
def resolve (files : Files) (path : String) : Except PathFault (Option (List String)) :=
  if path.isEmpty then .error .missing
  else
    let names := (Text.split (· = '/') path.toList).map String.ofList
    follow files (if path.startsWith "/" then none else some []) names

/-- Looks a path up. -/
def find (files : Files) : Lookup := fun path => do
  match ← files.resolve path with
  | none => .ok .directory
  | some names =>
    match files.entryAt names with
    | some entry => .ok entry
    | none => .error .missing

/-- The name under which a file is made when a path is written to; none if it cannot be. -/
def nameFor (files : Files) (path : String) : Option String :=
  match files.resolve path with
  | .ok (some names) =>
    if files.entryAt names = some .directory then none else some ("/".intercalate names)
  | _ => none

end Files

end BinRecord
