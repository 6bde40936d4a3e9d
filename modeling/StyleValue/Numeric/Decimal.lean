import StyleValue.Text.Basic

/-!
# Decimal numbers

A decimal is a signed coefficient times a power of ten. `ofNumeral` gives the decimal that a
plain numeral denotes: an optional sign, digits, and perhaps a point with digits. `NumberText.read?`
reads the wider notation of number texts, which also has exponents, infinities and digit separators.
-/

namespace StyleValue

structure Decimal where
  negative : Bool
  coefficient : Nat
  exponent : Int
  deriving DecidableEq, Repr

namespace Decimal

def splitSign : Text → Text × Text
  | '+' :: s => (['+'], s)
  | '-' :: s => (['-'], s)
  | s => ([], s)

theorem splitSign_append (s : Text) :
    (splitSign s).1 ++ (splitSign s).2 = s := by
  unfold splitSign
  split <;> rfl

/-- The decimal with these digits before and after the point, times `10 ^ exponent`. -/
def ofDigits (negative : Bool) (whole fraction : Text) (exponent : Int) : Decimal :=
  ⟨negative, Nat.ofDigitChars 10 (whole ++ fraction) 0, exponent - fraction.length⟩

def ofNumeral (numeral : Text) : Decimal :=
  let (sign, s) := splitSign numeral
  let fraction := (s.dropWhile Char.isDigit).drop 1
  ofDigits (sign = ['-']) (s.takeWhile Char.isDigit) (fraction.takeWhile Char.isDigit) 0

end Decimal

inductive NumberText where
  | decimal (value : Decimal)
  | infinity (negative : Bool)
  | nan
  deriving DecidableEq, Repr

namespace NumberText

/-- Removes the underscores, each of which has to stand between two digits. -/
def dropSeparators? (afterDigit : Bool) : Text → Option Text
  | [] => some []
  | c :: s =>
    if c = '_' then
      if afterDigit && (s.head?.any Char.isDigit) then dropSeparators? false s else none
    else (dropSeparators? c.isDigit s).map (c :: ·)

/-- The power of ten after the digits: nothing, or `e` with an optional sign and digits. -/
def readExponent? : Text → Option Int
  | [] => some 0
  | c :: s =>
    let (sign, digits) := Decimal.splitSign s
    if c.toLower = 'e' ∧ digits ≠ [] ∧ digits.all Char.isDigit then
      let size : Int := Nat.ofDigitChars 10 digits 0
      some (if sign = ['-'] then -size else size)
    else none

def readUnsigned? (negative : Bool) (s : Text) : Option NumberText :=
  let whole := s.takeWhile Char.isDigit
  let afterWhole := s.dropWhile Char.isDigit
  let fraction := if afterWhole.head? = some '.' then afterWhole.tail.takeWhile Char.isDigit else []
  let afterFraction :=
    if afterWhole.head? = some '.' then afterWhole.tail.dropWhile Char.isDigit else afterWhole
  if whole ++ fraction = [] then none
  else (readExponent? afterFraction).map fun exponent =>
    .decimal (Decimal.ofDigits negative whole fraction exponent)

/-- Letter case does not matter in the names of the infinities and of the undefined number. -/
def readSigned? (s : Text) : Option NumberText :=
  let (sign, magnitude) := Decimal.splitSign s
  let name := String.ofList (magnitude.map Char.toLower)
  if name = "inf" ∨ name = "infinity" then some (.infinity (sign = ['-']))
  else if name = "nan" then some .nan
  else readUnsigned? (sign = ['-']) magnitude

/-- Reads a number text. White space around it is dropped, and digits of any script count. -/
def read? (s : Text) : Option NumberText :=
  (dropSeparators? false ((s.trim Text.isWhiteSpace).map Text.asciiDigit)).bind readSigned?

end NumberText
end StyleValue
