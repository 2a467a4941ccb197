import SceneScript.Number.Basic

/-! Whole numbers among the numbers: truncation, the integer that a number is, and the remainder of
a division. All are stated on the parts of a number and are exact. -/

namespace SceneScript.Number

/-- The whole part of `m * 2 ^ e`. -/
def wholePart (m : Nat) (e : Int) : Nat :=
  if 0 ≤ e then m * power 2 e.toNat else m / power 2 (-e).toNat

/-- Whether `m * 2 ^ e` has no fraction. -/
def isWhole (m : Nat) (e : Int) : Bool := decide (0 ≤ e) || m % power 2 (-e).toNat == 0

/-- The number without its fraction. The sign stays, also that of a zero. -/
def truncate (x : Number) : Number :=
  match x.exact with
  | .finite negative m e => if isWhole m e then x else ofRatio negative (wholePart m e) 1
  | _ => x

/-- The integer that a number is, if it is one. -/
def integer? (x : Number) : Option Int :=
  match x.exact with
  | .finite negative m e =>
    if isWhole m e then some (if negative then -(wholePart m e : Int) else wholePart m e) else none
  | _ => none

/-- The largest integer below which every integer is a number of its own. -/
def safeLimit : Nat := power 2 53 - 1

/-- Whether a number is an integer and no other integer has it as its nearest number. -/
def isSafeInteger (x : Number) : Bool :=
  match x.integer? with
  | some n => decide (n.natAbs ≤ safeLimit)
  | none => false

/-- The remainder of a division whose quotient is cut to a whole number. It has the sign of the
dividend and is exact. -/
def remainder (x y : Number) : Number :=
  match x.exact, y.exact with
  | .finite negative m e, .finite _ n f =>
    if n = 0 then nan
    else
      let least := min e f
      ofScaled negative (m * power 2 (e - least).toNat % (n * power 2 (f - least).toNat)) least
  | .finite .., .infinite _ => x
  | _, _ => nan

end SceneScript.Number
