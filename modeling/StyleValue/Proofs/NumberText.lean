import StyleValue.Proofs.Numeral
import StyleValue.Proofs.Trim

/-! # Numerals as number texts

Every numeral is a number text, of whatever length, and stands for the same decimal there. So a
numeral that a reader has taken can always be converted. -/

namespace StyleValue
namespace Numeral

theorem Digits.takeWhile {s : Text} (h : Digits s) : s.takeWhile Char.isDigit = s := by
  simpa using @Text.takeWhile_run _ s [] h.2 rfl

theorem Digits.dropWhile {s : Text} (h : Digits s) : s.dropWhile Char.isDigit = [] := by
  simpa using @Text.dropWhile_run _ s [] h.2 rfl

/-- A numeral without its sign: digits, or a point and digits after some digits or none. -/
def Magnitude (s : Text) : Prop :=
  Digits s ∨ ∃ whole digits, (∀ c ∈ whole, c.isDigit) ∧ Digits digits ∧ s = whole ++ '.' :: digits

theorem Whole.magnitude {s : Text} (h : Whole s) :
    ∃ sign body, Sign sign ∧ Magnitude body ∧ s = sign ++ body := by
  obtain ⟨sign, digits, hsign, hdigits, rfl⟩ := h
  exact ⟨sign, digits, hsign, Or.inl hdigits, rfl⟩

theorem Fraction.magnitude {s : Text} (h : Fraction s) :
    ∃ sign body, Sign sign ∧ Magnitude body ∧ s = sign ++ body := by
  obtain ⟨whole, digits, rfl | ⟨sign, ds, hsign, hds, rfl⟩, hdigits, rfl⟩ := h
  · exact ⟨[], '.' :: digits, Or.inl rfl, Or.inr ⟨[], digits, by simp, hdigits, rfl⟩, rfl⟩
  · exact ⟨sign, ds ++ '.' :: digits, hsign, Or.inr ⟨ds, digits, hds.2, hdigits, rfl⟩, by simp⟩

def magnitudeChars : List Char := '.' :: "0123456789".toList

def numeralChars : List Char := '+' :: '-' :: magnitudeChars

theorem digit_mem {c : Char} (h : c.isDigit) : c ∈ magnitudeChars := by
  have hc := isDigit_code h
  have hd : c = Nat.digitChar (c.toNat - 0x30) := by
    apply Char.toNat_inj.mp
    rw [Nat.toNat_digitChar_of_lt_ten (by omega)]
    omega
  have hall : ∀ d < 10, Nat.digitChar d ∈ magnitudeChars := by decide
  rw [hd]
  exact hall _ (by omega)

theorem Magnitude.mem {s : Text} (h : Magnitude s) : ∀ c ∈ s, c ∈ magnitudeChars := by
  intro c hc
  rcases h with h | ⟨whole, digits, hw, hd, rfl⟩
  · exact digit_mem (h.2 c hc)
  · rcases List.mem_append.mp hc with hc | hc
    · exact digit_mem (hw c hc)
    · rcases List.mem_cons.mp hc with rfl | hc
      · exact List.mem_cons_self
      · exact digit_mem (hd.2 c hc)

theorem Magnitude.not_sign {s : Text} (h : Magnitude s) :
    s.begins (fun c => c = '+' ∨ c = '-') = false := by
  have hall : ∀ c ∈ magnitudeChars, decide (c = '+' ∨ c = '-') = false :=
    Text.forall_mem_of_all rfl
  cases s with
  | nil => rfl
  | cons c s => exact hall c (h.mem c List.mem_cons_self)

theorem mem_numeralChars {sign body : Text} (hsign : Sign sign) (h : Magnitude body) :
    ∀ c ∈ sign ++ body, c ∈ numeralChars := by
  intro c hc
  rcases List.mem_append.mp hc with hc | hc
  · rcases hsign with rfl | rfl | rfl
    · cases hc
    · rw [List.mem_singleton.mp hc]; decide
    · rw [List.mem_singleton.mp hc]; decide
  · simp [numeralChars, h.mem c hc]

theorem ofNumeral_eq {sign body : Text} (hsign : Sign sign) (h : Magnitude body) :
    Decimal.ofNumeral (sign ++ body) =
      Decimal.ofDigits (sign = ['-']) (body.takeWhile Char.isDigit)
        (((body.dropWhile Char.isDigit).drop 1).takeWhile Char.isDigit) 0 := by
  simp only [Decimal.ofNumeral, splitSign_sign hsign h.not_sign]

end Numeral

namespace NumberText

open Numeral

theorem dropSeparators?_of_none {s : Text} (h : '_' ∉ s) (afterDigit : Bool) :
    dropSeparators? afterDigit s = some s := by
  induction s generalizing afterDigit with
  | nil => rfl
  | cons c s ih =>
    simp only [List.mem_cons, not_or] at h
    rw [dropSeparators?, if_neg (Ne.symm h.1), ih h.2]
    rfl

theorem readUnsigned?_magnitude {s : Text} (h : Magnitude s) (negative : Bool) :
    readUnsigned? negative s = some (.decimal (Decimal.ofDigits negative (s.takeWhile Char.isDigit)
      (((s.dropWhile Char.isDigit).drop 1).takeWhile Char.isDigit) 0)) := by
  rcases h with h | ⟨whole, digits, hw, hd, rfl⟩
  · simp [readUnsigned?, h.takeWhile, h.dropWhile, h.1, readExponent?]
  · have hp : Text.begins Char.isDigit ('.' :: digits) = false := rfl
    simp [readUnsigned?, Text.takeWhile_run hw hp, Text.dropWhile_run hw hp, hd.takeWhile,
      hd.dropWhile, hd.1, readExponent?]

/-- No numeral is the name of an infinity or of the undefined number. -/
theorem ofList_lower_ne {s : Text} (h : Magnitude s) (name : String) {c : Char} {t : Text}
    (hname : name.toList = c :: t) (hc : c ∉ magnitudeChars.map Char.toLower) :
    String.ofList (s.map Char.toLower) ≠ name := by
  intro he
  have hl : s.map Char.toLower = c :: t := by rw [← hname, ← he, String.toList_ofList]
  cases s with
  | nil => cases hl
  | cons d s =>
    cases hl
    exact hc (List.mem_map_of_mem (h.mem d List.mem_cons_self))

theorem readSigned?_numeral {sign body : Text} (hsign : Sign sign) (h : Magnitude body) :
    readSigned? (sign ++ body) = some (.decimal (Decimal.ofNumeral (sign ++ body))) := by
  have hinf := ofList_lower_ne h "inf" rfl (by decide)
  have hinfinity := ofList_lower_ne h "infinity" rfl (by decide)
  have hnan := ofList_lower_ne h "nan" rfl (by decide)
  simp only [readSigned?, splitSign_sign hsign h.not_sign, hinf, hinfinity, hnan, or_self, if_false,
    readUnsigned?_magnitude h, ofNumeral_eq hsign h]

theorem read?_numeral {numeral : Text} (h : Whole numeral ∨ Fraction numeral) :
    read? numeral = some (.decimal (Decimal.ofNumeral numeral)) := by
  obtain ⟨sign, body, hsign, hbody, rfl⟩ :
      ∃ sign body, Sign sign ∧ Magnitude body ∧ numeral = sign ++ body :=
    h.elim Whole.magnitude Fraction.magnitude
  have hmem := mem_numeralChars hsign hbody
  have hspace : ∀ c ∈ numeralChars, Text.isWhiteSpace c = false := Text.forall_mem_of_all rfl
  have hdigit : ∀ c ∈ numeralChars, Text.asciiDigit c = c := Text.forall_mem_of_all rfl
  have hunder : '_' ∉ sign ++ body := fun hu => absurd (hmem _ hu) (by decide)
  have hascii : (sign ++ body).map Text.asciiDigit = sign ++ body :=
    (List.map_congr_left fun c hc => hdigit c (hmem c hc)).trans (List.map_id _)
  rw [read?, Text.trim_of_none fun c hc => hspace c (hmem c hc), hascii,
    dropSeparators?_of_none hunder]
  exact readSigned?_numeral hsign hbody

end NumberText

theorem Int32.read_whole {numeral : Text} (h : Numeral.Whole numeral) :
    Int32.read numeral = .ok (Int32.ofNumeral numeral) := by
  simp only [Int32.read, NumberText.read?_numeral (Or.inl h)]
  rfl

/-- The conversion of a numeral accepts it and gives the amount. -/
def Converts (numeral : Text) : Amount → Prop
  | .whole n => Int32.read numeral = .ok n
  | .fraction x => ∃ value, NumberText.read? numeral = some value ∧ x = Binary64.ofNumberText value

theorem Numeral.Fraction.converts {numeral : Text} (h : Fraction numeral) :
    Converts numeral (.fraction (Binary64.ofDecimal (Decimal.ofNumeral numeral))) :=
  ⟨_, NumberText.read?_numeral (Or.inr h), rfl⟩

theorem Numeral.Whole.converts {numeral : Text} (h : Whole numeral) :
    Converts numeral (.whole (Int32.ofNumeral numeral)) :=
  Int32.read_whole h

end StyleValue
