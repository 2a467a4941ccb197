import SceneScript.Number.Basic

/-! The shortest decimal of a number: of the decimals that read back as the number, one with the
fewest digits, and of those the nearest. -/

namespace SceneScript.Number

/-- The quantity `digits * 10 ^ exponent`. -/
structure Decimal where
  digits : Nat
  exponent : Int
deriving DecidableEq, Repr

namespace Decimal

/-- The decimal as a numerator and a denominator. -/
def ratio (d : Decimal) : Nat × Nat := scaled 10 d.digits 1 (-d.exponent)

/-- How many digits a natural number is written with. -/
def length (n : Nat) : Nat := (Nat.toDigits 10 n).length

/-- The bit pattern of the double nearest to a decimal. A decimal far above the largest double is
infinite and one far below the smallest is zero, whatever its digits. -/
def bits (d : Decimal) : Nat :=
  let top := d.exponent + length d.digits
  if d.digits = 0 then 0
  else if 310 < top then infinityBits
  else if top < -330 then 0
  else nearestBits d.ratio.1 d.ratio.2

end Decimal

/-- The `e` with `10 ^ e ≤ num / den < 10 ^ (e + 1)`, for positive `num` and `den`. -/
def floorLog10 (num den : Nat) : Int :=
  let e : Int := (Decimal.length num : Int) - Decimal.length den
  let s := scaled 10 num den e
  if s.2 ≤ s.1 then e else e - 1

/-- Of the two neighbours of `num / den` with the given last place, the one that reads back as
`bits`. When both do the nearer is taken, and the even one at a tie. -/
def neighbour? (bits num den : Nat) (place : Int) : Option Decimal :=
  let s := scaled 10 num den place
  let below : Decimal := ⟨s.1 / s.2, place⟩
  let above : Decimal := ⟨s.1 / s.2 + 1, place⟩
  match below.bits == bits, above.bits == bits with
  | true, true => some ⟨roundDiv s.1 s.2, place⟩
  | true, false => some below
  | false, true => some above
  | false, false => none

/-- The most digits a double ever needs to be told from its neighbours. -/
def enoughDigits : Nat := 17

/-- The shortest decimal of the double with the given magnitude bits, which is `num / den`. -/
def shortestOf (bits num den : Nat) : Decimal :=
  let lead := floorLog10 num den
  let places := (List.range enoughDigits).map fun (k : Nat) => lead - (k : Int)
  (places.findSome? (neighbour? bits num den)).getD
    (let place := lead - (enoughDigits - 1 : Nat)
     let s := scaled 10 num den place
     ⟨roundDiv s.1 s.2, place⟩)

/-- The shortest decimal of `m * 2 ^ e`, where `m` and `e` are the parts of a double. -/
def shortest (m : Nat) (e : Int) : Decimal :=
  if m = 0 then ⟨0, 0⟩
  else
    let s := scaled 2 m 1 (-e)
    shortestOf (nearestBits s.1 s.2) s.1 s.2

end SceneScript.Number
