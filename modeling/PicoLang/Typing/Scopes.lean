import PicoLang.Expr.Basic
import PicoLang.Defect

/-!
The names in scope while a program is checked: a stack of frames over a root frame. A name means its
innermost binding.
-/

namespace PicoLang

/-- What a name stands for. -/
structure Binding where
  type : Ty
  site : Span
  deriving DecidableEq, Repr

/-- The bindings made at one level, the latest first. -/
abbrev Frame := List (Text × Binding)

/-- A stack of frames. -/
structure Scopes where
  /-- The frames above the root, the innermost first. -/
  inner : List Frame
  /-- The frame that is always there. -/
  root : Frame
  deriving DecidableEq, Repr

namespace Scopes

/-- No bindings, and no frame above the root. -/
def empty : Scopes := ⟨[], []⟩

/-- The number of frames above the root. -/
def depth (s : Scopes) : Nat := s.inner.length

/-- Opens a frame. The depth is to be given back when the frame is closed. -/
def push (s : Scopes) : Nat × Scopes := (s.depth + 1, ⟨[] :: s.inner, s.root⟩)

/-- Closes the innermost frame, which must be the one at `depth`. -/
def pop (s : Scopes) (depth : Int) : Except Defect Scopes :=
  match s.inner with
  | [] => .error (.scopePop depth 0)
  | _ :: outer => if depth = s.depth then .ok ⟨outer, s.root⟩ else .error (.scopePop depth s.depth)

/-- Binds a name in the innermost frame, in place of a binding that it has there. -/
def bindAt (s : Scopes) (name : Text) (type : Ty) (site : Span) : Scopes :=
  match s.inner with
  | [] => ⟨[], (name, ⟨type, site⟩) :: s.root⟩
  | frame :: outer => ⟨((name, ⟨type, site⟩) :: frame) :: outer, s.root⟩

/-- Binds a name that was introduced nowhere in the source. -/
def bind (s : Scopes) (name : Text) (type : Ty) : Scopes := s.bindAt name type Span.none

/-- Binds the parameters of a function in order. -/
def bindParams (s : Scopes) (params : List Param) : Scopes :=
  params.foldl (fun s p => s.bindAt p.name p.type p.span) s

/-- The innermost binding of a name. -/
def lookup? (s : Scopes) (name : Text) : Option Binding :=
  (s.inner ++ [s.root]).findSome? fun frame => frame.lookup name

end Scopes

end PicoLang
