import PicoLang.Text.Basic

/-!
The types of the language: named types and function types, compared by structure. `Ty.same` is the
comparison the checker uses, and it decides equality.
-/

namespace PicoLang

/-- The types of the language. -/
inductive Ty
  /-- A type known by its name. -/
  | named (name : Text)
  /-- A function type with its parameters in order. -/
  | func (params : List Ty) (ret : Ty)
  /-- No type is given. A tree made by hand can leave out a parameter's type. -/
  | absent
  deriving Repr, Inhabited

namespace Ty

/-- The internal name of the unit type, which the source writes `unit` or `()`. -/
def unitName : Text := "__unit__"

/-- The type of integers. -/
def int : Ty := .named "int"

/-- The type of strings. -/
def string : Ty := .named "string"

/-- The type of truth values. -/
def bool : Ty := .named "bool"

/-- The type with one value. -/
def unit : Ty := .named unitName

mutual

/-- The two types are the same. -/
def same : Ty → Ty → Bool
  | .named a, .named b => a == b
  | .func ps r, .func qs s => sameAll ps qs && same r s
  | .absent, .absent => true
  | _, _ => false

/-- The lists hold the same types in the same order. -/
def sameAll : List Ty → List Ty → Bool
  | [], [] => true
  | p :: ps, q :: qs => same p q && sameAll ps qs
  | _, _ => false

end

mutual

theorem eq_of_same : {a b : Ty} → a.same b = true → a = b
  | .named _, .named _, h => by simpa [same] using h
  | .func ps _, .func qs _, h => by
    simp only [same, Bool.and_eq_true] at h
    rw [eq_of_sameAll h.1, eq_of_same h.2]
  | .absent, .absent, _ => rfl
  | .named _, .func _ _, h => by simp [same] at h
  | .named _, .absent, h => by simp [same] at h
  | .func _ _, .named _, h => by simp [same] at h
  | .func _ _, .absent, h => by simp [same] at h
  | .absent, .named _, h => by simp [same] at h
  | .absent, .func _ _, h => by simp [same] at h

theorem eq_of_sameAll : {as bs : List Ty} → sameAll as bs = true → as = bs
  | [], [], _ => rfl
  | a :: as, b :: bs, h => by
    simp only [sameAll, Bool.and_eq_true] at h
    rw [eq_of_same h.1, eq_of_sameAll h.2]
  | [], _ :: _, h => by simp [sameAll] at h
  | _ :: _, [], h => by simp [sameAll] at h

end

mutual

theorem same_self : (a : Ty) → a.same a = true
  | .named _ => by simp [same]
  | .func ps r => by simp [same, sameAll_self ps, same_self r]
  | .absent => rfl

theorem sameAll_self : (as : List Ty) → sameAll as as = true
  | [] => rfl
  | a :: as => by simp [sameAll, same_self a, sameAll_self as]

end

theorem same_iff {a b : Ty} : a.same b = true ↔ a = b :=
  ⟨eq_of_same, fun h => h ▸ same_self a⟩

instance : DecidableEq Ty := fun a b =>
  if h : a.same b = true then isTrue (same_iff.1 h) else isFalse fun e => h (same_iff.2 e)

mutual

/-- The type as it is shown in messages. -/
def display : Ty → Text
  | .named name => if name = unitName then "()" else name
  | .func params ret => "(" ++ Text.join ", " (displayAll params) ++ ") -> " ++ display ret
  | .absent => "<nil>"

/-- Several types as they are shown in messages. -/
def displayAll : List Ty → List Text
  | [] => []
  | t :: ts => display t :: displayAll ts

end

mutual

/-- The type as it is written in a program. -/
def written : Ty → Text
  | .named name => if name = unitName then "unit" else name
  | .func params ret => "fn(" ++ Text.join ", " (writtenAll params) ++ ") -> " ++ written ret
  | .absent => "<nil>"

/-- Several types as they are written in a program. -/
def writtenAll : List Ty → List Text
  | [] => []
  | t :: ts => written t :: writtenAll ts

end

/-- The type that a program means by a name. -/
def ofName? (name : Text) : Option Ty :=
  if name = "int" then some int
  else if name = "string" then some string
  else if name = "bool" then some bool
  else if name = "unit" ∨ name = "()" ∨ name = unitName then some unit
  else none

/-- The type is that of functions. -/
def isFunc : Ty → Bool
  | .func _ _ => true
  | _ => false

end Ty

end PicoLang
