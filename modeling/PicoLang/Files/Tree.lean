import PicoLang.Files.Basic
import PicoLang.Path

/-!
A file system in memory. Every directory and file is entered under its components from the root;
a path is followed component by component, through directories only.
-/

namespace PicoLang

/-- What is entered at a place. -/
inductive FileEntry
  | file (content : Text)
  | directory
  | device (device : Device)
  deriving DecidableEq, Repr

namespace FileEntry

/-- What there is at the entry. -/
def kind : FileEntry → FileKind
  | file _ => .file
  | directory => .directory
  | device d => .device d

end FileEntry

/-- Entries by their components from the root, which is always there. -/
abbrev FileTree := List (List Text × FileEntry)

namespace FileTree

/-- What there is at a place. At the root there is a directory. -/
def entryAt? (t : FileTree) (place : List Text) : Option FileEntry :=
  if place.isEmpty then some .directory else t.lookup place

/-- Puts something at a place. -/
def enter (t : FileTree) (place : List Text) (entry : FileEntry) : FileTree :=
  t.filter (fun e => e.1 != place) ++ [(place, entry)]

/-- The most bytes of a component. -/
def maxNameLength : Nat := 255

/-- The most bytes of a path. -/
def maxPathLength : Nat := 4095

/-- Follows components from a place. The last of them need not be there. -/
def follow (t : FileTree) (place : List Text) : List Text → Except FileProblem (List Text)
  | [] => .ok place
  | part :: parts =>
    match t.entryAt? place with
    | none => .error .missing
    | some (.file _) | some (.device _) => .error .notDirectory
    | some .directory =>
      if part = [] ∨ part = Path.here then t.follow place parts
      else if part = Path.above then t.follow place.dropLast parts
      else if maxNameLength < part.length then .error .nameTooLong
      else t.follow (place ++ [part]) parts

/-- The place that components lead to from a working directory. -/
def locate (t : FileTree) (directory : List Text) (path : Text) (parts : List Text) :
    Except FileProblem (List Text) :=
  if path.contains 0 then .error .invalidName
  else if path.isEmpty then .error .missing
  else if maxPathLength < path.length then .error .nameTooLong
  else t.follow (if Path.isAbsolute path then [] else directory) parts

/-- The components of a path. A slash at the end counts as an empty one. -/
def components (path : Text) : List Text := Text.splitOn Path.slash path

/-- The components of a path without a slash at its end. -/
def bareComponents (path : Text) : List Text :=
  components (path.reverse.dropWhile (· == Path.slash)).reverse

/-- What a path leads to. -/
def kind (t : FileTree) (directory : List Text) (path : Text) : Except FileProblem FileKind :=
  match t.locate directory path (components path) with
  | .error problem => .error problem
  | .ok place =>
    match t.entryAt? place with
    | none => .error .missing
    | some entry => .ok entry.kind

/-- The content of a file. A device has none of its own. -/
def read (t : FileTree) (directory : List Text) (path : Text) : Except FileError Text :=
  match t.locate directory path (components path) with
  | .error problem => .error ⟨"open", path, problem⟩
  | .ok place =>
    match t.entryAt? place with
    | none => .error ⟨"open", path, .missing⟩
    | some .directory => .error ⟨"read", path, .isDirectory⟩
    | some (.file content) => .ok content
    | some (.device _) => .ok []

/-- Changes a file, or a new and empty one. A device stays as it is. -/
def update (t : FileTree) (directory : List Text) (path : Text) (f : Text → Text) :
    Except FileError FileTree :=
  match t.locate directory path (bareComponents path) with
  | .error problem => .error ⟨"open", path, problem⟩
  | .ok place =>
    if path.getLast? = some Path.slash then .error ⟨"open", path, .isDirectory⟩
    else match t.entryAt? place with
      | some .directory => .error ⟨"open", path, .isDirectory⟩
      | some (.file content) => .ok (t.enter place (.file (f content)))
      | some (.device _) => .ok t
      | none => .ok (t.enter place (.file (f [])))

/-- Makes a directory in one that is there. -/
def makeDirectory (t : FileTree) (directory : List Text) (path : Text) : Except FileError FileTree :=
  match t.locate directory path (bareComponents path) with
  | .error problem => .error ⟨"mkdir", path, problem⟩
  | .ok place =>
    match t.entryAt? place with
    | some _ => .error ⟨"mkdir", path, .alreadyExists⟩
    | none => .ok (t.enter place .directory)

/-- Enters something, and a directory at every place above it where there is nothing. -/
def plant (t : FileTree) (place : List Text) (entry : FileEntry) : FileTree :=
  let above := (List.range place.length).map place.take
  let grown := above.foldl (fun s p => if (s.entryAt? p).isNone then s.enter p .directory else s) t
  if place.isEmpty then t else grown.enter place entry

end FileTree

end PicoLang
