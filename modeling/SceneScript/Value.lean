import SceneScript.Error
import SceneScript.Number.Arithmetic
import SceneScript.Number.Written
import SceneScript.Tree

/-! Values of a running script. Native functions are named by keys of a type of the host's choice;
what a key does is said elsewhere, so values are plain data. -/

namespace SceneScript

/-- A procedure declared by a script. -/
structure Procedure where
  name : String
  params : List String
  body : List Stmt
deriving Inhabited

/-- What can be called: a procedure of a script or a native function. -/
inductive Callable (ν : Type) where
  | proc (p : Procedure)
  | native (name : String) (key : ν)

/-- The name under which a callable was made. -/
def Callable.name {ν : Type} : Callable ν → String
  | .proc p => p.name
  | .native name _ => name

/-- The values of a script. Whole and fractional numbers are told apart though both are doubles. -/
inductive Value (ν : Type) where
  | nil
  | int (value : Number)
  | float (value : Number)
  | bool (value : Bool)
  | str (value : String)
  | fn (callable : Callable ν)

namespace Value

variable {ν : Type}

instance : Inhabited (Value ν) := ⟨.nil⟩

/-- The whole number that a number is without its fraction. -/
def whole (x : Number) : Value ν := .int x.truncate

/-- The kind of a value. -/
def kind : Value ν → ValueKind
  | .nil => .nil
  | .int _ => .int
  | .float _ => .float
  | .bool _ => .bool
  | .str _ => .str
  | .fn _ => .function

/-- Whether a value counts as true. Nothing, false, zero and the empty text do not. -/
def truthy : Value ν → Bool
  | .nil => false
  | .bool b => b
  | .int x => !x.isZero
  | .float x => !x.isZero
  | .str s => s != ""
  | .fn _ => true

/-- The number that a value is. -/
def number : Value ν → Except RuntimeCause Number
  | .int x => .ok x
  | .float x => .ok x
  | v => .error (.notNumeric v.kind)

/-- The whole number that a value is without its fraction. -/
def integer : Value ν → Except RuntimeCause Number
  | .int x => .ok x
  | .float x => .ok x.truncate
  | v => .error (.notNumeric v.kind)

/-- The text of a value. Fractional numbers keep a place after the point. -/
def text : Value ν → String
  | .nil => "nil"
  | .int x => x.written
  | .float x => x.writtenWithPoint
  | .bool b => if b then "true" else "false"
  | .str s => s
  | .fn (.native name _) => "<native " ++ name ++ ">"
  | .fn (.proc p) => "<proc " ++ p.name ++ ">"

/-- The texts of some values with a space between them. -/
def texts (vs : List (Value ν)) : String := " ".intercalate (vs.map text)

end Value

namespace CompareOp

/-- The outcome of a comparison. -/
def compute : CompareOp → Number → Number → Bool
  | .eq, x, y => x.equals y
  | .ne, x, y => !x.equals y
  | .lt, x, y => x.less y
  | .le, x, y => x.atMost y
  | .gt, x, y => y.less x
  | .ge, x, y => y.atMost x

end CompareOp

namespace ArithOp

/-- The outcome of an operation on numbers. -/
def compute : ArithOp → Number → Number → Number
  | .add, x, y => x + y
  | .sub, x, y => x - y
  | .mul, x, y => x * y
  | .div, x, y => x / y
  | .mod, x, y => x.remainder y

end ArithOp

end SceneScript
