/-! Numbers. A number of a script is a double, held by its bit pattern; a finite one is
`mantissa * 2 ^ exponent` with a sign. It is taken apart from its bits and put together again from
a quotient of naturals, rounded to the nearest double and at a tie to the one whose last bit is
zero. -/

namespace SceneScript

/-- A double by its bit pattern. -/
structure Number where
  bits : UInt64
deriving DecidableEq, Repr, Inhabited

namespace Number

/-- What a bit pattern stands for. -/
inductive Exact where
  | nan
  | infinite (negative : Bool)
  /-- The quantity `mantissa * 2 ^ exponent`, negated when `negative`. Zero has both signs. -/
  | finite (negative : Bool) (mantissa : Nat) (exponent : Int)
deriving DecidableEq, Repr

/-- The power of a natural number. Which instance gives its meaning is said here once. -/
def power (base n : Nat) : Nat :=
  letI : Pow Nat Nat := instPowNat
  base ^ n

/-- The exponent of the last place of the smallest doubles. -/
def leastExponent : Int := -1074

/-- The quantity a bit pattern stands for: one bit of sign, eleven of exponent and fifty-two of
fraction, to which every exponent but the least adds a leading one. -/
def Exact.ofBits (bits : Nat) : Exact :=
  let negative : Bool := decide (power 2 63 ≤ bits)
  let biased := bits / power 2 52 % power 2 11
  let fraction := bits % power 2 52
  if biased = 2047 then
    if fraction = 0 then .infinite negative else .nan
  else if biased = 0 then .finite negative fraction leastExponent
  else .finite negative (power 2 52 + fraction) (leastExponent + (biased - 1 : Nat))

/-- What a number stands for. -/
def exact (x : Number) : Exact := .ofBits x.bits.toNat

/-- The natural number nearest to `num / den`, the even one at a tie. -/
def roundDiv (num den : Nat) : Nat :=
  let q := num / den
  let r := num % den
  if 2 * r < den then q
  else if den < 2 * r then q + 1
  else q + q % 2

/-- `num / den / base ^ e` as a numerator and a denominator. -/
def scaled (base num den : Nat) (e : Int) : Nat × Nat :=
  if 0 ≤ e then (num, den * power base e.toNat) else (num * power base (-e).toNat, den)

/-- The `e` with `2 ^ e ≤ num / den < 2 ^ (e + 1)`, for positive `num` and `den`. -/
def floorLog2 (num den : Nat) : Int :=
  let e : Int := (num.log2 : Int) - den.log2
  let s := scaled 2 num den e
  if s.2 ≤ s.1 then e else e - 1

/-- The bit pattern of infinity. -/
def infinityBits : Nat := 2047 * power 2 52

/-- The bit pattern of the double nearest to `num / den`, for positive `den`. The places of the
quotient end fifty-two below its leading one, or at the least exponent; a leading one and a carry
out of the fraction both add to the exponent field, and what passes the largest double is
infinity. -/
def nearestBits (num den : Nat) : Nat :=
  if num = 0 then 0
  else
    let e := max (floorLog2 num den - 52) leastExponent
    let s := scaled 2 num den e
    min infinityBits ((e - leastExponent).toNat * power 2 52 + roundDiv s.1 s.2)

/-- The number with the given sign and magnitude bits. -/
def ofMagnitude (negative : Bool) (bits : Nat) : Number :=
  ⟨UInt64.ofNat ((if negative then power 2 63 else 0) + bits)⟩

/-- The number nearest to `num / den`, negated when `negative`. -/
def ofRatio (negative : Bool) (num den : Nat) : Number :=
  ofMagnitude negative (nearestBits num den)

/-- The number nearest to `m * 2 ^ e`, negated when `negative`. -/
def ofScaled (negative : Bool) (m : Nat) (e : Int) : Number :=
  let s := scaled 2 m 1 (-e)
  ofRatio negative s.1 s.2

/-- The number nearest to a natural number. -/
def ofNat (n : Nat) : Number := ofRatio false n 1

/-- Not a number. -/
def nan : Number := ⟨0x7ff8000000000000⟩

/-- Infinity of either sign. -/
def infinity (negative : Bool) : Number := ofMagnitude negative infinityBits

/-- Whether a number is neither infinite nor not a number. -/
def isFinite (x : Number) : Bool :=
  match x.exact with
  | .finite .. => true
  | _ => false

/-- Whether a number is zero of either sign. -/
def isZero (x : Number) : Bool :=
  match x.exact with
  | .finite _ m _ => m == 0
  | _ => false

end Number

end SceneScript
