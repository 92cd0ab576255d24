namespace MetricPipeline

abbrev twoPow (k : Nat) : Nat := Nat.pow 2 k

/-- The quotient rounded to the nearest whole number, a half to the even one. -/
def roundDiv (n d : Nat) : Nat :=
  let q := n / d
  let r := n % d
  if 2 * r < d then q
  else if 2 * r = d then q + q % 2
  else q + 1

structure Binary64 where
  bits : UInt64
deriving DecidableEq, Repr, Inhabited

namespace Binary64

def negative (x : Binary64) : Bool := twoPow 63 ≤ x.bits.toNat

def exponent (x : Binary64) : Nat := x.bits.toNat / twoPow 52 % twoPow 11

def fraction (x : Binary64) : Nat := x.bits.toNat % twoPow 52

def isFinite (x : Binary64) : Bool := x.exponent ≠ 2047

def isNaN (x : Binary64) : Bool := x.exponent = 2047 ∧ x.fraction ≠ 0

def significand (x : Binary64) : Nat :=
  if x.exponent = 0 then x.fraction else twoPow 52 + x.fraction

def spacing (x : Binary64) : Nat := twoPow (x.exponent - 1)

/-- The magnitude in units of `2 ^ -1074`. An infinity comes out above every finite magnitude. -/
def units (x : Binary64) : Nat := x.significand * x.spacing

def signedUnits (x : Binary64) : Int :=
  if x.negative then -(x.units : Int) else x.units

def zero : Binary64 := ⟨0⟩

def one : Binary64 := ⟨0x3ff0000000000000⟩

/-- The order of the numbers. Nothing is below or above a NaN, and the two zeros are equal. -/
def lt (x y : Binary64) : Bool :=
  !x.isNaN && !y.isNaN && x.signedUnits < y.signedUnits

def le (x y : Binary64) : Bool :=
  !x.isNaN && !y.isNaN && x.signedUnits ≤ y.signedUnits

/-- The number nearest to `n / d`, ties to the even significand, infinity when past the range.

A rounded significand `m` at spacing `2 ^ k` has the bits `k * 2 ^ 52 + m`: below `2 ^ 52` the
number is subnormal, and a carry to `2 ^ 53` moves on to the next exponent. -/
def nearest (n d : Nat) : Binary64 :=
  let n := n * twoPow 1074
  let k := Nat.log2 (n / d) - 52
  let bits := k * twoPow 52 + roundDiv n (d * twoPow k)
  ⟨UInt64.ofNat (min bits (2047 * twoPow 52))⟩

def neg (x : Binary64) : Binary64 := ⟨x.bits ^^^ 0x8000000000000000⟩

/-- The product with a whole number, correctly rounded, for `x` not negative and finite. -/
def scale (x : Binary64) (k : Nat) : Binary64 := nearest (x.units * k) (twoPow 1074)

/-- The sum, correctly rounded, for `x` and `y` not negative and finite. -/
def plus (x y : Binary64) : Binary64 := nearest (x.units + y.units) (twoPow 1074)

end Binary64
end MetricPipeline
