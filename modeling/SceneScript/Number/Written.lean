import SceneScript.Number.Shortest
import SceneScript.Number.Whole

/-! Written numbers: the decimal of a double set out with a point among its digits or with an
exponent behind them. -/

namespace SceneScript.Number

/-- How numbers are set out. -/
structure Style where
  /-- The largest power of ten that a leading digit may have and still be written with zeros up to
  the point. -/
  largest : Int
  /-- The smallest power of ten that a leading digit may have and still be written with zeros down
  from the point. -/
  smallest : Int
  /-- Whether a negative zero keeps its sign. -/
  signedZero : Bool
deriving Repr

/-- Numbers as scripts show them: exponents from twenty-one on and below minus six, and one zero. -/
def Style.plain : Style := ⟨20, -6, false⟩

/-- Numbers as they are exchanged with a host, which tells the two zeros apart. -/
def Style.signed : Style := { Style.plain with signedZero := true }

/-- The digits of a natural number. -/
def digitsOf (n : Nat) : List Char := Nat.toDigits 10 n

/-- The digits without the zeros at their end. -/
def significant (ds : List Char) : List Char := (ds.reverse.dropWhile (· = '0')).reverse

/-- An exponent with its sign. -/
def writtenExponent (e : Int) : List Char :=
  'e' :: (if e < 0 then '-' else '+') :: digitsOf e.natAbs

/-- Digits whose first stands for `10 ^ lead`, set out in the given style. -/
def setOut (style : Style) (digits : List Char) (lead : Int) : List Char :=
  if style.smallest ≤ lead ∧ lead ≤ style.largest then
    if lead < 0 then
      '0' :: '.' :: List.replicate (-lead - 1).toNat '0' ++ digits
    else
      let places := lead.toNat + 1
      if digits.length ≤ places then digits ++ List.replicate (places - digits.length) '0'
      else digits.take places ++ '.' :: digits.drop places
  else
    match digits with
    | [] => []
    | [d] => d :: writtenExponent lead
    | d :: ds => d :: '.' :: ds ++ writtenExponent lead

/-- A decimal set out in the given style. -/
def Decimal.written (style : Style) (d : Decimal) : List Char :=
  if d.digits = 0 then ['0']
  else
    let ds := digitsOf d.digits
    setOut style (significant ds) (d.exponent + (ds.length - 1 : Nat))

/-- A text with a minus sign before it when `negative`. -/
def withSign (negative : Bool) (cs : List Char) : List Char := if negative then '-' :: cs else cs

/-- A number in the given style, with the fewest digits that read back. -/
def writtenIn (style : Style) (x : Number) : String :=
  match x.exact with
  | .nan => "NaN"
  | .infinite negative => if negative then "-Infinity" else "Infinity"
  | .finite negative m e =>
    String.ofList (withSign (negative && (m != 0 || style.signedZero))
      ((shortest m e).written style))

/-- A number as scripts show it. -/
def written (x : Number) : String := writtenIn .plain x

/-- A number that keeps one place after the point when it is whole. A whole number too large to be
set out with a point is written as any other number. -/
def writtenWithPoint (x : Number) : String :=
  match x.integer? with
  | some n =>
    if n.natAbs < power 10 (Style.plain.largest.toNat + 1) then
      String.ofList (withSign (decide (n < 0)) (digitsOf n.natAbs ++ ['.', '0']))
    else written x
  | none => written x

end SceneScript.Number
