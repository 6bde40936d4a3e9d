import StyleValue.Numeric.Decimal
import StyleValue.Text.Quoted

/-!
# Double precision and 32-bit numbers

The values of the 64-bit binary format: `mantissa * 2 ^ exponent` with a mantissa below 2^53 and
an exponent from -1074 to 971, infinities, and one undefined value. A nonzero mantissa is at least
2^52 unless the exponent is -1074, and a zero has exponent -1074, so each value has one form.
Reading rounds the exact decimal to the nearest value, a tie to the even mantissa.

An integer numeral is read in double precision, truncated toward zero and wrapped into the
range from -2^31 to 2^31 - 1. A numeral beyond the largest double counts as zero.
-/

namespace StyleValue

-- Powers are those of the core library in this namespace, whatever else is imported.
attribute [scoped instance (high)] instPowNat

namespace Ratio

/-- The integer nearest to `num / den`, where a half goes to the even neighbour. -/
def nearestEven (num den : Nat) : Nat :=
  let below := num / den
  let twice := 2 * (num % den)
  if den < twice ∨ (den = twice ∧ below % 2 = 1) then below + 1 else below

/-- The greatest `k` with `2 ^ k ≤ num / den`, for a positive ratio. -/
def floorLog2 (num den : Nat) : Int :=
  let k : Int := (num.log2 : Int) - den.log2
  if den * 2 ^ k.toNat ≤ num * 2 ^ (-k).toNat then k else k - 1

def floorLog10 (num den : Nat) : Int :=
  let k : Int := ((Nat.toDigits 10 num).length : Int) - (Nat.toDigits 10 den).length
  if den * 10 ^ k.toNat ≤ num * 10 ^ (-k).toNat then k else k - 1

end Ratio

inductive Binary64 where
  | finite (negative : Bool) (mantissa : Nat) (exponent : Int)
  | infinity (negative : Bool)
  | nan
  deriving DecidableEq, Repr

namespace Binary64

def minExponent : Int := -1074
def maxExponent : Int := 971

def zero (negative : Bool) : Binary64 := .finite negative 0 minExponent

/-- The value of a rounded mantissa. Rounding up to 2^53 moves to the next exponent. -/
def ofRounded (negative : Bool) (mantissa : Nat) (exponent : Int) : Binary64 :=
  let (m, e) :=
    if mantissa = 2 ^ (53 : Nat) then (2 ^ (52 : Nat), exponent + 1) else (mantissa, exponent)
  if maxExponent < e then .infinity negative else .finite negative m e

def ofRatio (negative : Bool) (num den : Nat) : Binary64 :=
  if num = 0 then zero negative
  else
    let exponent := max (Ratio.floorLog2 num den - 52) minExponent
    ofRounded negative
      (Ratio.nearestEven (num * 2 ^ (-exponent).toNat) (den * 2 ^ exponent.toNat)) exponent

/-- The value nearest to a decimal. The first two cases after zero only keep powers of ten small:
a decimal from 10^400 on overflows, and one below 10^-400 vanishes. -/
def ofDecimal (d : Decimal) : Binary64 :=
  if d.coefficient = 0 then zero d.negative
  else if 400 < d.exponent then .infinity d.negative
  else if d.exponent < -400 - d.coefficient.log2 then zero d.negative
  else ofRatio d.negative (d.coefficient * 10 ^ d.exponent.toNat) (10 ^ (-d.exponent).toNat)

def ofNumberText : NumberText → Binary64
  | .decimal d => ofDecimal d
  | .infinity negative => .infinity negative
  | .nan => .nan

/-- The integer part, toward zero. Values that are not finite have none. -/
def truncate? : Binary64 → Option Int
  | .finite negative mantissa exponent =>
    let size : Int := (mantissa * 2 ^ exponent.toNat / 2 ^ (-exponent).toNat : Nat)
    some (if negative then -size else size)
  | _ => none

end Binary64

/-- The integer of the 32-bit range that is congruent to `n`. -/
def wrap32 (n : Int) : Int := n.bmod (2 ^ (32 : Nat))

structure NotANumber where
  text : Text
  deriving DecidableEq, Repr

def NotANumber.message (e : NotANumber) : Text :=
  "could not convert string to float: ".toList ++ e.text.quoted

namespace Int32

def ofBinary64 (x : Binary64) : Int := wrap32 (x.truncate?.getD 0)

def ofNumeral (numeral : Text) : Int :=
  ofBinary64 (Binary64.ofDecimal (Decimal.ofNumeral numeral))

def read (s : Text) : Except NotANumber Int :=
  match NumberText.read? s with
  | some n => .ok (ofBinary64 (Binary64.ofNumberText n))
  | none => .error ⟨s⟩

end Int32

end StyleValue
