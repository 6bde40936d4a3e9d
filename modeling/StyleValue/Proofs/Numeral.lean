import StyleValue.Proofs.Characters

/-! # Numerals

The grammar of whole and fractional numerals. A reader takes the numeral that begins a text
with all its digits, and what it takes is always a number text, of the decimal the numeral
denotes. -/

namespace StyleValue
namespace Numeral

def Sign (s : Text) : Prop := s = [] ∨ s = ['+'] ∨ s = ['-']

def Digits (s : Text) : Prop := s ≠ [] ∧ ∀ c ∈ s, c.isDigit

def Whole (s : Text) : Prop := ∃ sign digits, Sign sign ∧ Digits digits ∧ s = sign ++ digits

def Fraction (s : Text) : Prop :=
  ∃ whole digits, (whole = [] ∨ Whole whole) ∧ Digits digits ∧ s = whole ++ '.' :: digits

def beginsWith (mark : Char) : Text → Bool
  | [] => false
  | c :: s => c = mark && Text.begins Char.isDigit s

theorem Digits.begins {digits : Text} (h : Digits digits) (s : Text) :
    (digits ++ s).begins Char.isDigit = true := by
  obtain ⟨hne, hd⟩ := h
  cases digits with
  | nil => exact (hne rfl).elim
  | cons c digits => exact hd c List.mem_cons_self

theorem sign_splitSign (s : Text) : Sign (Decimal.splitSign s).1 := by
  unfold Decimal.splitSign Sign
  split <;> simp

theorem splitSign_sign {sign s : Text} (h : Sign sign)
    (hs : s.begins (fun c => c = '+' ∨ c = '-') = false) :
    Decimal.splitSign (sign ++ s) = (sign, s) := by
  rcases h with rfl | rfl | rfl
  · rw [List.nil_append, Decimal.splitSign.eq_3]
    · rintro t rfl; simp at hs
    · rintro t rfl; simp at hs
  · rfl
  · rfl

theorem not_sign_of_digit {s : Text} (h : s.begins Char.isDigit = true) :
    s.begins (fun c => c = '+' ∨ c = '-') = false := by
  cases s with
  | nil => rfl
  | cons c s =>
    have hc := isDigit_code (show c.isDigit from h)
    have hp : c ≠ '+' := by
      intro heq
      subst heq
      exact absurd hc (by decide)
    have hm : c ≠ '-' := by
      intro heq
      subst heq
      exact absurd hc (by decide)
    simp [hp, hm]

theorem whole?_eq_some_iff {s numeral rest : Text} :
    whole? s = some (numeral, rest) ↔
      Whole numeral ∧ s = numeral ++ rest ∧ rest.begins Char.isDigit = false := by
  constructor
  · intro h
    have hs := (whole?_append h).1
    simp only [whole?] at h
    split at h
    · cases h
    · next hd =>
      cases h
      refine ⟨⟨_, _, sign_splitSign s, ⟨hd, Text.mem_takeWhile⟩, rfl⟩, hs, ?_⟩
      exact Text.begins_dropWhile _ _
  · intro h
    obtain ⟨⟨sign, digits, hsign, hdigits, rfl⟩, rfl, hrest⟩ := h
    have hsplit := splitSign_sign hsign (not_sign_of_digit (hdigits.begins rest))
    rw [List.append_assoc]
    simp only [whole?, hsplit, Text.takeWhile_run hdigits.2 hrest,
      Text.dropWhile_run hdigits.2 hrest, if_neg hdigits.1]

theorem whole?_eq_none_iff {s : Text} :
    whole? s = none ↔ (Decimal.splitSign s).2.begins Char.isDigit = false := by
  simp only [whole?]
  cases h : (Decimal.splitSign s).2 with
  | nil => simp
  | cons c t => by_cases hc : c.isDigit = true <;> simp [hc]

theorem whole?_cons_eq_none_iff {c : Char} {s : Text} :
    whole? (c :: s) = none ↔
      c.isDigit = false ∧ ((c = '+' ∨ c = '-') → s.begins Char.isDigit = false) := by
  rw [whole?_eq_none_iff]
  by_cases hp : c = '+'
  · subst hp; simp [Decimal.splitSign]
  · by_cases hm : c = '-'
    · subst hm; simp [Decimal.splitSign]
    · have hs := @splitSign_sign [] (c :: s) (Or.inl rfl) (by simp [hp, hm])
      simp only [List.nil_append] at hs
      simp [hs, hp, hm]

theorem fraction?_eq_some_iff {s numeral rest : Text} :
    fraction? s = some (numeral, rest) ↔
      Fraction numeral ∧ s = numeral ++ rest ∧ rest.begins Char.isDigit = false := by
  constructor
  · intro h
    have hs := (fraction?_append h).1
    simp only [fraction?] at h
    split at h
    · next afterPoint hb =>
      split at h
      · cases h
      · next hd =>
        cases h
        refine ⟨⟨_, _, ?_, ⟨hd, Text.mem_takeWhile⟩, rfl⟩, hs, Text.begins_dropWhile _ _⟩
        cases hw : whole? s with
        | none => exact Or.inl rfl
        | some r => exact Or.inr (whole?_eq_some_iff.mp (show whole? s = some (r.1, r.2) from hw)).1
    · cases h
  · intro h
    obtain ⟨⟨whole, digits, hwhole, hdigits, rfl⟩, rfl, hrest⟩ := h
    have hw : (whole? (whole ++ '.' :: (digits ++ rest))).getD
        ([], whole ++ '.' :: (digits ++ rest)) = (whole, '.' :: (digits ++ rest)) := by
      rcases hwhole with rfl | hwhole
      · rfl
      · rw [whole?_eq_some_iff.mpr ⟨hwhole, rfl, rfl⟩]
        rfl
    rw [List.append_assoc, List.cons_append]
    simp only [fraction?, hw, Text.takeWhile_run hdigits.2 hrest,
      Text.dropWhile_run hdigits.2 hrest, if_neg hdigits.1]

/-- After the digits of a whole numeral only a point with a digit makes a fraction. -/
theorem fraction?_whole_eq_none_iff {numeral rest : Text} (h : Whole numeral)
    (hrest : rest.begins Char.isDigit = false) :
    fraction? (numeral ++ rest) = none ↔ beginsWith '.' rest = false := by
  have hw : whole? (numeral ++ rest) = some (numeral, rest) :=
    whole?_eq_some_iff.mpr ⟨h, rfl, hrest⟩
  simp only [fraction?, hw, Option.getD_some]
  split
  · next afterPoint =>
    cases afterPoint with
    | nil => simp [beginsWith]
    | cons c t => by_cases hc : c.isDigit = true <;> simp [beginsWith, hc]
  · next hp =>
    cases rest with
    | nil => simp [beginsWith]
    | cons c t =>
      have hc : c ≠ '.' := fun hc => hp t (by rw [hc])
      simp [beginsWith, hc]

def starts (c : Char) : Bool := c.isDigit || c = '+' || c = '-' || c = '.'

theorem Digits.starts {digits : Text} (h : Digits digits) (s : Text) :
    (digits ++ s).begins starts = true := by
  have hd := h.begins s
  cases hs : digits ++ s with
  | nil => rw [hs] at hd; cases hd
  | cons c t =>
    rw [hs, Text.begins_cons] at hd
    simp [Numeral.starts, hd]

theorem Whole.starts {numeral : Text} (h : Whole numeral) (s : Text) :
    (numeral ++ s).begins starts = true := by
  obtain ⟨sign, digits, rfl | rfl | rfl, hdigits, rfl⟩ := h
  · exact hdigits.starts s
  · rfl
  · rfl

theorem Fraction.starts {numeral : Text} (h : Fraction numeral) (s : Text) :
    (numeral ++ s).begins starts = true := by
  obtain ⟨whole, digits, rfl | hwhole, _, rfl⟩ := h
  · rfl
  · rw [List.append_assoc]
    exact hwhole.starts _

theorem reads_cons_iff {c : Char} {s : Text} :
    (fraction? (c :: s) = none ∧ whole? (c :: s) = none) ↔
      c.isDigit = false ∧ ((c = '+' ∨ c = '-' ∨ c = '.') → s.begins Char.isDigit = false) := by
  rw [whole?_cons_eq_none_iff]
  constructor
  · intro h
    obtain ⟨hf, hd, hs⟩ := h
    refine ⟨hd, ?_⟩
    intro h
    rcases h with rfl | rfl | rfl
    · exact hs (Or.inl rfl)
    · exact hs (Or.inr rfl)
    · cases s with
      | nil => rfl
      | cons d t =>
        have hw : whole? ('.' :: d :: t) = none := whole?_cons_eq_none_iff.mpr ⟨hd, hs⟩
        by_contra hc
        simp only [Text.begins_cons, Bool.not_eq_false] at hc
        simp [fraction?, hw, hc] at hf
  · intro h
    obtain ⟨hd, hs⟩ := h
    refine ⟨?_, hd, fun h => hs (h.imp_right Or.inl)⟩
    have hw : whole? (c :: s) = none :=
      whole?_cons_eq_none_iff.mpr ⟨hd, fun h => hs (h.imp_right Or.inl)⟩
    simp only [fraction?, hw, Option.getD_none]
    split
    · next t he =>
      cases he
      cases s with
      | nil => rfl
      | cons d t =>
        have hc : d.isDigit = false := hs (Or.inr (Or.inr rfl))
        simp [hc]
    · rfl

end Numeral
end StyleValue
