import PicoLang.Defect

/-!
What the code generator knows about the stack at run time: its height, and which names stand for
which slots.
-/

namespace PicoLang

/-- The highest slot that an instruction can address. -/
def maxSlot : Int := 255

/-- A name that stands for a slot of the stack. -/
structure Local where
  name : Text
  depth : Nat
  /-- The slot, counted from the bottom of the stack. -/
  slot : Int
  deriving DecidableEq, Repr

/-- The state that a scope is opened in. -/
structure ScopeMark where
  depth : Nat
  base : Int
  count : Nat
  deriving DecidableEq, Repr

/-- Names and height of the stack. -/
structure Locals where
  /-- The names, the latest first. -/
  live : List Local
  depth : Nat
  /-- The height of the stack after the code written so far. -/
  height : Int
  deriving DecidableEq, Repr

namespace Locals

/-- No names and an empty stack. -/
def empty : Locals := ⟨[], 0, 0⟩

/-- The names with another height of the stack. -/
def withHeight (l : Locals) (height : Int) : Locals := { l with height }

/-- Opens a scope and says where it begins. -/
def openScope (l : Locals) : ScopeMark × Locals :=
  (⟨l.depth + 1, l.height, l.live.length⟩, { l with depth := l.depth + 1 })

/-- The names declared since a scope was opened, the earliest first. -/
def since (l : Locals) (mark : ScopeMark) : List Local :=
  (l.live.take (l.live.length - mark.count)).reverse

/-- Closes the innermost scope and forgets the names declared in it. -/
def closeScope (l : Locals) (mark : ScopeMark) : Except Defect Locals :=
  if mark.depth ≠ l.depth then .error (.scopeClose mark.depth l.depth)
  else if l.live.length < mark.count then .error (.sliceBounds mark.count l.live.length)
  else match (l.since mark).find? fun loc => loc.depth < mark.depth with
    | some loc => .error (.outlived loc.name loc.depth)
    | none =>
      .ok { l with live := l.live.drop (l.live.length - mark.count), depth := l.depth - 1 }

/-- The number of values between those that were there when a scope was opened and the one on top. -/
def extra (l : Locals) (mark : ScopeMark) : Int := l.height - 1 - mark.base

/-- Declares a name for a slot, if the slot can be addressed. -/
def declare (l : Locals) (name : Text) (slot : Int) : Option Locals :=
  if slot > maxSlot then none else some { l with live := ⟨name, l.depth, slot⟩ :: l.live }

/-- The latest declaration of a name. -/
def resolve? (l : Locals) (name : Text) : Option Local := l.live.find? fun loc => loc.name == name

end Locals

end PicoLang
