import StyleValue.Numeric.Binary64

/-!
# Displayed numbers

Integers are shown by their digits. Doubles are shown by their shortest decimal: positionally,
with at least one digit on either side of the point, while the leading digit counts at least
10^-4 and less than 10^16, and otherwise with a signed exponent of at least two digits.

Among the decimals that read back as a given double, `shortest` has the fewest digits. Of two such
decimals the nearer is taken, of two equally near ones the even. The grids with 1, 2, … digits are
tried in turn, and on each grid only the two neighbours of the value matter, because the decimals
that read back form an interval around it.
-/

namespace StyleValue

namespace Binary64

def readsBack (mantissa : Nat) (exponent : Int) (coefficient : Nat) (power : Int) : Bool :=
  ofDecimal ⟨false, coefficient, power⟩ = .finite false mantissa exponent

/-- The better neighbour of the value on the grid of step `10 ^ power`, if one reads back. -/
def neighbour? (mantissa : Nat) (exponent power : Int) : Option Nat :=
  let num := mantissa * 2 ^ exponent.toNat * 10 ^ (-power).toNat
  let den := 2 ^ (-exponent).toNat * 10 ^ power.toNat
  let below := num / den
  match readsBack mantissa exponent below power, readsBack mantissa exponent (below + 1) power with
  | true, true => some (Ratio.nearestEven num den)
  | true, false => some below
  | false, true => some (below + 1)
  | false, false => none

/-- Every double is a decimal: halves are tenths of fives. -/
def exactDecimal (mantissa : Nat) (exponent : Int) : Decimal :=
  ⟨false, mantissa * 2 ^ exponent.toNat * 5 ^ (-exponent).toNat, min exponent 0⟩

/-- The shortest decimal of a positive double. Seventeen digits always suffice. -/
def shortest (mantissa : Nat) (exponent : Int) : Decimal :=
  let leading := Ratio.floorLog10 (mantissa * 2 ^ exponent.toNat) (2 ^ (-exponent).toNat)
  let found := (List.range 17).findSome? fun (n : Nat) =>
    let power := leading - n
    (neighbour? mantissa exponent power).map (⟨false, ·, power⟩)
  found.getD (exactDecimal mantissa exponent)

end Binary64

def showSign (negative : Bool) : Text := if negative then ['-'] else []

def showNat (n : Nat) : Text := Nat.toDigits 10 n

def showInt (n : Int) : Text := showSign (n < 0) ++ showNat n.natAbs

namespace Decimal

/-- The significant digits, and the power of ten that the first of them counts. -/
def significant (d : Decimal) : Text × Int :=
  let digits := showNat d.coefficient
  (digits.trimRight (· = '0'), d.exponent + digits.length - 1)

/-- The first leading power of ten shown positionally, and the first one above them. -/
def positionalFrom : Int := -4
def positionalBelow : Int := 16

def orZero (digits : Text) : Text := if digits = [] then ['0'] else digits

def showPositional (digits : Text) (leading : Int) : Text :=
  if leading < 0 then '0' :: '.' :: List.replicate (-leading - 1).toNat '0' ++ digits
  else
    let width := leading.toNat + 1
    digits.take width ++ List.replicate (width - digits.length) '0' ++
      '.' :: orZero (digits.drop width)

def showExponent (e : Int) : Text :=
  let digits := showNat e.natAbs
  'e' :: (if e < 0 then '-' else '+') :: List.replicate (2 - digits.length) '0' ++ digits

def showScientific (digits : Text) (leading : Int) : Text :=
  digits.take 1 ++ (if digits.length ≤ 1 then [] else '.' :: digits.drop 1) ++ showExponent leading

def showMagnitude (d : Decimal) : Text :=
  let (digits, leading) := d.significant
  if positionalFrom ≤ leading ∧ leading < positionalBelow then showPositional digits leading
  else showScientific digits leading

end Decimal

def Binary64.display : Binary64 → Text
  | .finite negative mantissa exponent =>
    showSign negative ++
      if mantissa = 0 then "0.0".toList else (shortest mantissa exponent).showMagnitude
  | .infinity negative => showSign negative ++ "inf".toList
  | .nan => "nan".toList

end StyleValue
