import MetricPipeline.Number.Binary64

namespace MetricPipeline

abbrev tenPow (k : Nat) : Nat := Nat.pow 10 k

def digits (n : Nat) : List Char := Nat.toDigits 10 n

def lastDigits : Nat → Nat → List Char
  | 0, _ => []
  | k + 1, n => lastDigits k (n / 10) ++ [Nat.digitChar (n % 10)]

theorem lastDigits_length (k n : Nat) : (lastDigits k n).length = k := by
  induction k generalizing n with
  | zero => rfl
  | succ k ih => simp [lastDigits, ih]

def integerText (n : Int) : List Char :=
  if n < 0 then '-' :: digits n.natAbs else digits n.natAbs

/-- The number `coefficient / 10 ^ places`, with its sign. -/
structure Numeral where
  negative : Bool
  coefficient : Nat
  places : Nat
deriving DecidableEq, Repr

namespace Numeral

def whole (x : Numeral) : List Char := digits (x.coefficient / tenPow x.places)

def decimals (x : Numeral) : List Char := lastDigits x.places x.coefficient

def text (x : Numeral) : List Char :=
  (if x.negative then ['-'] else []) ++ x.whole ++
    if x.places = 0 then [] else '.' :: x.decimals

def value (x : Numeral) : Binary64 :=
  let magnitude := Binary64.nearest x.coefficient (tenPow x.places)
  if x.negative then magnitude.neg else magnitude

def digitValue? (c : Char) : Option Nat :=
  if '0' ≤ c ∧ c ≤ '9' then some (c.toNat - '0'.toNat) else none

def readDigits? : List Char → Option Nat
  | [] => none
  | cs => cs.foldl (fun n c => n.bind fun n => (digitValue? c).map (10 * n + ·)) (some 0)

/-- Reads a numeral: an optional minus sign, digits, and optionally a point and more digits. -/
def read? (cs : List Char) : Option Numeral :=
  let negative := cs.head? = some '-'
  let cs := if negative then cs.tail else cs
  let whole := cs.takeWhile (· ≠ '.')
  match cs.dropWhile (· ≠ '.') with
  | [] => (readDigits? whole).map (⟨negative, ·, 0⟩)
  | _ :: decimals =>
    (readDigits? whole).bind fun _ =>
      (readDigits? decimals).bind fun _ =>
        (readDigits? (whole ++ decimals)).map (⟨negative, ·, decimals.length⟩)

end Numeral
end MetricPipeline
