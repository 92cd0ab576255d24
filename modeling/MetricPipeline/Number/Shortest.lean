import MetricPipeline.Number.Numeral

namespace MetricPipeline

/-- The numbers that round to `value`: between `lower` and `upper`, ends included if `closed`. They
are in units of `2 ^ -1076 * 10 ^ -343`, in which the decimal grids are whole, too. -/
structure Rounding where
  lower : Nat
  value : Nat
  upper : Nat
  closed : Bool
deriving DecidableEq, Repr

namespace Rounding

def contains (r : Rounding) (c : Nat) : Bool :=
  if r.closed then r.lower ≤ c ∧ c ≤ r.upper else r.lower < c ∧ c < r.upper

/-- The step of grid `i`, which is `10 ^ (i - 343)`. -/
def step (i : Nat) : Nat := twoPow 1076 * tenPow i

/-- A half way between two grid points goes to the even one from `10 ^ -5` up to `10 ^ 16`, and up
elsewhere. -/
def tie (r : Rounding) (d : Nat) : Nat :=
  if step 338 ≤ r.value ∧ r.value < step 359 then d + d % 2 else d + 1

def point? (r : Rounding) (i : Nat) : Option Nat :=
  let d := r.value / step i
  match r.contains (d * step i), r.contains ((d + 1) * step i) with
  | false, false => none
  | true, false => some d
  | false, true => some (d + 1)
  | true, true =>
    if 2 * r.value < (2 * d + 1) * step i then some d
    else if (2 * d + 1) * step i < 2 * r.value then some (d + 1)
    else some (r.tie d)

def search (r : Rounding) : Nat → Nat × Nat
  | 0 => ((r.point? 0).getD 0, 0)
  | i + 1 =>
    match r.point? (i + 1) with
    | some d => (d, i + 1)
    | none => r.search i

/-- A grid with a step above `upper`, by `8 ≤ 10`: no point of it or of a coarser one is inside. -/
def start (r : Rounding) : Nat := (Nat.log2 r.upper + 1 - 1076) / 3 + 1

end Rounding

namespace Binary64

/-- Below a power of two the numbers are twice as dense, except at the bottom of the range. -/
def rounding (x : Binary64) : Rounding :=
  let below := if x.fraction = 0 ∧ 1 < x.exponent then x.spacing else 2 * x.spacing
  { lower := (4 * x.units - below) * tenPow 343
    value := 4 * x.units * tenPow 343
    upper := (4 * x.units + 2 * x.spacing) * tenPow 343
    closed := x.significand % 2 = 0 }

def shortest (x : Binary64) : Numeral :=
  if x.units = 0 then ⟨x.negative, 0, 0⟩
  else
    let (d, i) := x.rounding.search x.rounding.start
    ⟨x.negative, d * tenPow (i - 343), 343 - i⟩

def specialText (x : Binary64) : List Char :=
  if x.isNaN then "NaN".toList else if x.negative then "-inf".toList else "inf".toList

def shortestText (x : Binary64) : List Char :=
  if x.isFinite then x.shortest.text else x.specialText

def sixPlaces (x : Binary64) : Numeral :=
  ⟨x.negative, roundDiv (x.units * tenPow 6) (twoPow 1074), 6⟩

def sixPlacesText (x : Binary64) : List Char :=
  if x.isFinite then x.sixPlaces.text else x.specialText

end Binary64
end MetricPipeline
