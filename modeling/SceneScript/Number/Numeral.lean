import SceneScript.Number.Shortest
import SceneScript.Text.Blank

/-! Numerals: texts that are read as numbers. A numeral is a decimal with an optional sign, point
and exponent, a whole number in base sixteen, eight or two behind its mark, or the word for
infinity. Blanks around it are ignored, a text of blanks is zero, and any other text is not a
number. -/

namespace SceneScript.Number

/-- The value of a digit, if it is one of the given base. -/
def digitValue? (base : Nat) (c : Char) : Option Nat :=
  let n := c.toNat
  let value :=
    if 0x30 ≤ n ∧ n ≤ 0x39 then n - 0x30
    else if 0x41 ≤ n ∧ n ≤ 0x5A then n - 0x41 + 10
    else if 0x61 ≤ n ∧ n ≤ 0x7A then n - 0x61 + 10
    else base
  if value < base then some value else none

/-- The number that the digits of a base stand for, read on from `acc`. -/
def readFrom (base acc : Nat) : List Char → Nat
  | [] => acc
  | c :: cs => readFrom base (acc * base + (digitValue? base c).getD 0) cs

/-- The number that the digits of a base stand for. -/
def readDigits (base : Nat) (cs : List Char) : Nat := readFrom base 0 cs

/-- The whole number written in a base, or not a number when there is no digit or a character that
is none. -/
def readWhole (base : Nat) (cs : List Char) : Number :=
  if cs ≠ [] ∧ cs.all (fun c => (digitValue? base c).isSome) then ofNat (readDigits base cs)
  else nan

/-- An exponent: a sign if any and at least one digit, to the end of the text. -/
def readExponent? (cs : List Char) : Option Int :=
  let whole (ds : List Char) : Option Nat :=
    if ds ≠ [] ∧ ds.all Char.isDigit then some (readDigits 10 ds) else none
  match cs with
  | '-' :: ds => (whole ds).map fun n => -(n : Int)
  | '+' :: ds => (whole ds).map Int.ofNat
  | ds => (whole ds).map Int.ofNat

/-- The decimal that an unsigned numeral stands for: digits with at most one point, a digit on one
side of it, and an exponent if any. -/
def readDecimal? (cs : List Char) : Option Decimal :=
  let whole := cs.takeWhile Char.isDigit
  let rest := cs.dropWhile Char.isDigit
  let (part, rest) := match rest with
    | '.' :: r => (r.takeWhile Char.isDigit, r.dropWhile Char.isDigit)
    | r => ([], r)
  if whole = [] ∧ part = [] then none
  else
    let exponent? := match rest with
      | [] => some 0
      | c :: r => if c = 'e' ∨ c = 'E' then readExponent? r else none
    exponent?.map fun e => ⟨readDigits 10 (whole ++ part), e - part.length⟩

/-- An unsigned numeral in base ten, or the word for infinity, with the sign that stood before
it. -/
def readUnsigned (negative : Bool) (cs : List Char) : Number :=
  match cs with
  | ['I', 'n', 'f', 'i', 'n', 'i', 't', 'y'] => infinity negative
  | cs =>
    match readDecimal? cs with
    | some d => ofMagnitude negative d.bits
    | none => nan

/-- The number that a text stands for. Only numerals in base ten take a sign. -/
def read (s : String) : Number :=
  match Text.trim s.toList with
  | [] => ofNat 0
  | '0' :: c :: cs =>
    if c = 'x' ∨ c = 'X' then readWhole 16 cs
    else if c = 'o' ∨ c = 'O' then readWhole 8 cs
    else if c = 'b' ∨ c = 'B' then readWhole 2 cs
    else readUnsigned false ('0' :: c :: cs)
  | '-' :: cs => readUnsigned true cs
  | '+' :: cs => readUnsigned false cs
  | cs => readUnsigned false cs

end SceneScript.Number
