import PicoLang.Text.Basic

/-!
Names of files and directories: components divided by slashes. A clean path has no component that
could be left out; two paths that are clean and equal name the same file.
-/

namespace PicoLang.Path

/-- The byte between components. -/
def slash : UInt8 := 0x2F

/-- The path of the working directory. -/
def here : Text := "."

/-- The component that stands for the directory above. -/
def above : Text := ".."

/-- The path starts at the root. -/
def isAbsolute (path : Text) : Bool := path.head? == some slash

/-- Puts a component on a clean stack of components, the last of them first. -/
def push (absolute : Bool) (stack : List Text) (part : Text) : List Text :=
  if part = [] ∨ part = here then stack
  else if part = above then
    match stack with
    | [] => if absolute then [] else [above]
    | top :: rest => if top = above then above :: stack else rest
  else part :: stack

/-- The shortest path that names the same file, as far as it can be told from the path alone. -/
def clean (path : Text) : Text :=
  let parts := ((Text.splitOn slash path).foldl (push (isAbsolute path)) []).reverse
  if isAbsolute path then slash :: Text.join [slash] parts
  else if parts.isEmpty then here
  else Text.join [slash] parts

/-- A path that starts in a directory. -/
def join (directory path : Text) : Text :=
  if directory = [] then (if path = [] then [] else clean path) else clean (directory ++ slash :: path)

/-- The path of the directory that holds what the path leads to. -/
def parent (path : Text) : Text :=
  clean (path.reverse.dropWhile (· != slash)).reverse

/-- A path as seen from a directory that is itself given from the root. -/
def absolute (directory path : Text) : Text :=
  if isAbsolute path then clean path else join directory path

/-- The paths from the root that a path goes through, one for each component, as far as it can be told
    from the path alone. -/
def trail (directory path : Text) : List Text :=
  let start := if isAbsolute path then [] else Text.splitOn slash directory
  let pathOf (stack : List Text) : Text := slash :: Text.join [slash] stack.reverse
  let step (trail : List (List Text)) (part : Text) : List (List Text) :=
    push true (trail.head?.getD []) part :: trail
  ((Text.splitOn slash path).foldl step [start.foldl (push true) []]).reverse.map pathOf

/-- A directory and the ones above it, up to the root. -/
def ancestorsUpTo : Nat → Text → List Text
  | 0, _ => []
  | limit + 1, path => path :: (if parent path = path then [] else ancestorsUpTo limit (parent path))

/-- A directory and the ones above it, innermost first. The parent of a clean path that is not its own
    parent is shorter. -/
def ancestors (path : Text) : List Text := ancestorsUpTo (path.length + 1) path

/-- A path without its last component and the slash before it. -/
def lead (path : Text) : Text :=
  (((path.reverse.dropWhile (· == slash)).dropWhile (· != slash)).drop 1).reverse

/-- A path and its leads, longest first. -/
def leadsUpTo : Nat → Text → List Text
  | 0, _ => []
  | limit + 1, path => if path = [] then [] else path :: leadsUpTo limit (lead path)

/-- A path and its leads, longest first. Each lead is shorter than the path before it. -/
def leads (path : Text) : List Text := leadsUpTo (path.length + 1) path

end PicoLang.Path
