import StyleValue.Numeric.Decimal

/-!
# Numerals

The numerals at the beginning of a text: whole ones, and ones with a point. Reading one takes all
the digits there are, and splits the text into the numeral and the rest.
-/

namespace StyleValue

namespace Numeral

/-- An optional sign and digits. -/
def whole? (s : Text) : Option (Text × Text) :=
  let (sign, body) := Decimal.splitSign s
  let digits := body.takeWhile Char.isDigit
  if digits = [] then none else some (sign ++ digits, body.dropWhile Char.isDigit)

/-- A point and digits, perhaps after a whole numeral. Without one there is no sign. -/
def fraction? (s : Text) : Option (Text × Text) :=
  let (whole, body) := (whole? s).getD ([], s)
  match body with
  | '.' :: afterPoint =>
    let digits := afterPoint.takeWhile Char.isDigit
    if digits = [] then none
    else some (whole ++ '.' :: digits, afterPoint.dropWhile Char.isDigit)
  | _ => none

theorem whole?_append {s numeral rest : Text} (h : whole? s = some (numeral, rest)) :
    s = numeral ++ rest ∧ numeral ≠ [] := by
  simp only [whole?] at h
  split at h
  · cases h
  · next hd =>
    cases h
    refine ⟨?_, by simp [hd]⟩
    rw [List.append_assoc, List.takeWhile_append_dropWhile,
      Decimal.splitSign_append]

theorem getD_whole?_append (s : Text) :
    ((whole? s).getD ([], s)).1 ++ ((whole? s).getD ([], s)).2 = s := by
  cases h : whole? s with
  | none => rfl
  | some split => exact (whole?_append h).1.symm

theorem fraction?_append {s numeral rest : Text} (h : fraction? s = some (numeral, rest)) :
    s = numeral ++ rest ∧ numeral ≠ [] := by
  simp only [fraction?] at h
  split at h
  · next afterPoint hb =>
    split at h
    · cases h
    · cases h
      refine ⟨?_, by simp⟩
      rw [List.append_assoc, List.cons_append, List.takeWhile_append_dropWhile, ← hb,
        getD_whole?_append]
  · cases h

end Numeral

end StyleValue
