import SceneScript.Number.Basic

/-! Arithmetic and order of numbers, as the machine computes them: every result is the nearest
double to the exact one. -/

namespace SceneScript.Number

/-- The number as the machine computes with it. -/
def toFloat (x : Number) : Float := Float.ofBits x.bits

/-- The number that the machine has computed. -/
def ofFloat (x : Float) : Number := ⟨x.toBits⟩

instance : Add Number := ⟨fun x y => ofFloat (x.toFloat + y.toFloat)⟩

instance : Sub Number := ⟨fun x y => ofFloat (x.toFloat - y.toFloat)⟩

instance : Mul Number := ⟨fun x y => ofFloat (x.toFloat * y.toFloat)⟩

instance : Div Number := ⟨fun x y => ofFloat (x.toFloat / y.toFloat)⟩

instance : Neg Number := ⟨fun x => ofFloat (-x.toFloat)⟩

/-- The number one. -/
def one : Number := ofNat 1

/-- Whether one number is less than another. Not a number is less than nothing and nothing is less
than it. -/
def less (x y : Number) : Bool := decide (x.toFloat < y.toFloat)

/-- Whether one number is less than another or equal to it. -/
def atMost (x y : Number) : Bool := decide (x.toFloat ≤ y.toFloat)

/-- Whether two numbers are equal. The two zeros are, and not a number differs from itself. -/
def equals (x y : Number) : Bool := x.toFloat == y.toFloat

end SceneScript.Number
