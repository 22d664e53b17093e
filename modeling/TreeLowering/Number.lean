/-!
Double-precision numbers by their bits.

A number is the sixty-four bits of its IEEE 754 binary64 form, so equality, sign and rounding are
facts about bits and natural numbers. `ofRatio?` rounds a quotient of natural numbers to the
nearest double, a half going to the even neighbour, and refuses what lies past the largest one.
-/
namespace TreeLowering

/-- A binary64 number, held as its bits. -/
structure Binary64 where
  bits : UInt64
deriving DecidableEq, Repr

namespace Binary64

def zero : Binary64 := ⟨0⟩

def signBit : UInt64 := 0x8000000000000000

/-- The number with the opposite sign. -/
def neg (x : Binary64) : Binary64 := ⟨x.bits ^^^ signBit⟩

/-- The bits below the sign. -/
def magnitude (x : Binary64) : Nat := x.bits.toNat % signBit.toNat

/-- The weight of the bit above the fraction, which normal numbers leave out. -/
def hiddenBit : Nat := 0x10000000000000

/-- Bits of the infinities, without the sign. -/
def infinityMagnitude : Nat := 0x7FF * hiddenBit

def isNaN (x : Binary64) : Bool := infinityMagnitude < x.magnitude

/-- Comparison as numbers: a NaN equals nothing, and the two zeros are equal. -/
def numericEq (x y : Binary64) : Bool :=
  !x.isNaN && !y.isNaN && (x.bits == y.bits || (x.magnitude == 0 && y.magnitude == 0))

/-- The number with its sign cleared when it is a zero. -/
def unsignedZero (x : Binary64) : Binary64 :=
  if x.magnitude = 0 then zero else x

/-- The quotient `n / d`, rounded to the nearest integer, a half to the even neighbour. -/
def roundQuotient (n d : Nat) : Nat :=
  let q := n / d
  let r := n % d
  if d < 2 * r then q + 1
  else if 2 * r = d then q + q % 2
  else q

/-- The exponent of the unit in the last place for a quotient `n / d`: with it the rounded
significand has at most fifty-three bits, and never less than the least exponent, -1074. -/
def unitExponent (n d : Nat) : Int :=
  let guess : Int := (n.log2 : Int) - (d.log2 : Int) - 53
  let fits (e : Int) : Bool := n * Nat.pow 2 (-e).toNat < d * Nat.pow 2 (53 + e.toNat)
  let e := if fits guess then guess else if fits (guess + 1) then guess + 1 else guess + 2
  max e (-1074)

/-- The double nearest to `n / d`, or `none` when it lies past the largest finite double. The
significand that rounding carries to the next power of two needs no case of its own: the bits of
consecutive doubles are consecutive numbers. -/
def ofRatio? (n d : Nat) : Option Binary64 :=
  if n = 0 then some zero
  else
    let e := unitExponent n d
    let m := roundQuotient (n * Nat.pow 2 (-e).toNat) (d * Nat.pow 2 e.toNat)
    let biased := (e + 1074).toNat
    let bits := m + biased * hiddenBit
    if infinityMagnitude ≤ bits then none else some ⟨bits.toUInt64⟩

/-- A non-negative finite double as the quotient of two natural numbers. -/
def toRatio (x : Binary64) : Nat × Nat :=
  let field := x.magnitude / hiddenBit
  let fraction := x.magnitude % hiddenBit
  if field = 0 then (fraction, Nat.pow 2 1074)
  else
    let m := fraction + hiddenBit
    if 1075 ≤ field then (m * Nat.pow 2 (field - 1075), 1) else (m, Nat.pow 2 (1075 - field))

/-- The rounded product of two non-negative doubles. -/
def mul? (x y : Binary64) : Option Binary64 :=
  let (a, b) := x.toRatio
  let (c, d) := y.toRatio
  ofRatio? (a * c) (b * d)

/-- The rounded quotient of two non-negative doubles. -/
def div? (x y : Binary64) : Option Binary64 :=
  let (a, b) := x.toRatio
  let (c, d) := y.toRatio
  ofRatio? (a * d) (b * c)

/-- The greatest power of ten that is a finite double. -/
def maxPowerOfTen : Nat := 308

/-- The double nearest to a power of ten. -/
def powerOfTen? (k : Nat) : Option Binary64 :=
  if k ≤ maxPowerOfTen then ofRatio? (Nat.pow 10 k) 1 else none

/-- The value `x / 10 ^ k` for a `k` of any size. The division is made in steps of the greatest
power of ten, each of them rounded, and two steps lead any 64-bit significand to zero. -/
def scaleDown (x : Binary64) (k : Nat) : Option Binary64 := do
  if k ≤ maxPowerOfTen then x.div? (← powerOfTen? k)
  else
    let y ← x.div? (← powerOfTen? maxPowerOfTen)
    if k ≤ 2 * maxPowerOfTen then y.div? (← powerOfTen? (k - maxPowerOfTen)) else some zero

/-- The double read from a decimal significand and a power of ten. The significand is rounded
first, and then the scaled value: two roundings, where the nearest double needs one. -/
def ofDecimal? (significand : Nat) (exponent : Int) : Option Binary64 := do
  let x ← ofRatio? significand 1
  if x = zero then some zero
  else if 0 ≤ exponent then x.mul? (← powerOfTen? exponent.toNat)
  else scaleDown x (-exponent).toNat

end Binary64

end TreeLowering
