import StyleValue.Numeric.Display
import StyleValue.Proofs.NumberText
import StyleValue.Proofs.Rounding

/-! # Integer literals in 32 bits

A literal stands for its integer up to multiples of 2^32 as long as the integer is a double. From
2^53 on the nearest double stands for it, and from 2^84 on every double is a multiple of 2^32. -/

namespace StyleValue

/-- How an integer is written: an optional sign, any number of zeros, and the digits. -/
def Literal (n : Int) (s : Text) : Prop :=
  ∃ sign zeros size, Numeral.Sign sign ∧ n = signed (sign = ['-']) size ∧
    s = sign ++ (List.replicate zeros '0' ++ showNat size)

theorem digits_showNat (zeros size : Nat) :
    Numeral.Digits (List.replicate zeros '0' ++ showNat size) := by
  refine ⟨by simp [showNat], fun c hc => ?_⟩
  rcases List.mem_append.mp hc with hc | hc
  · rw [List.eq_of_mem_replicate hc]
    decide
  · exact Nat.isDigit_of_mem_toDigits (by decide) (by decide) hc

namespace Literal

variable {n : Int} {s : Text}

theorem whole (h : Literal n s) : Numeral.Whole s := by
  obtain ⟨sign, zeros, size, hsign, -, rfl⟩ := h
  exact ⟨sign, _, hsign, digits_showNat zeros size, rfl⟩

theorem ofNumeral_eq (h : Literal n s) :
    ∃ negative, Decimal.ofNumeral s = ⟨negative, n.natAbs, 0⟩ ∧ n = signed negative n.natAbs := by
  obtain ⟨sign, zeros, size, hsign, rfl, rfl⟩ := h
  have hdigits := digits_showNat zeros size
  refine ⟨decide (sign = ['-']), ?_, by rw [natAbs_signed]⟩
  rw [Numeral.ofNumeral_eq hsign (Or.inl hdigits), hdigits.takeWhile, hdigits.dropWhile,
    natAbs_signed]
  simp [Decimal.ofDigits, Nat.ofDigitChars_append, showNat]

end Literal

theorem wrap32_modEq (n : Int) : wrap32 n ≡ n [ZMOD 2 ^ 32] :=
  Int.bmod_emod

theorem wrap32_range (n : Int) : -2 ^ 31 ≤ wrap32 n ∧ wrap32 n < 2 ^ 31 :=
  ⟨Int.le_bmod (by decide), Int.bmod_lt (by decide)⟩

theorem signed_mul (negative : Bool) (size unit : Nat) :
    signed negative (size * unit) = signed negative size * unit := by
  cases negative <;> simp [signed]

theorem Ratio.Nearest.signed {size unit multiple : Nat} (h : Nearest size unit multiple)
    (negative : Bool) : Nearest (signed negative size) unit (signed negative multiple) := by
  cases negative with
  | false => exact h
  | true => exact h.neg

namespace Int32

/-- An infinity stands for a multiple of 2^32, as the doubles below it do. -/
theorem ofBinary64_ofRounded (negative : Bool) (mantissa exponent : Nat) :
    ofBinary64 (Binary64.ofRounded negative mantissa exponent) ≡
      signed negative mantissa * 2 ^ exponent [ZMOD 2 ^ 32] := by
  rcases Binary64.truncate?_ofRounded negative mantissa exponent with h | ⟨h, he⟩
  · rw [ofBinary64, h, Option.getD_some, signed_mul]
    exact_mod_cast wrap32_modEq _
  · rw [ofBinary64, h, Option.getD_none]
    have hunit : (2 ^ 32 : Int) ∣ 2 ^ exponent := pow_dvd_pow 2 (by omega)
    exact (Int.modEq_zero_iff_dvd.mpr (hunit.mul_left _)).symm

variable {n : Int} {s : Text}

theorem ofNumeral_of_lt (h : Literal n s) (hn : n.natAbs < 2 ^ 53) :
    ofNumeral s ≡ n [ZMOD 2 ^ 32] := by
  obtain ⟨negative, hs, hsign⟩ := h.ofNumeral_eq
  rw [ofNumeral, hs]
  by_cases hzero : n.natAbs = 0
  · rw [hzero, Int.natAbs_eq_zero.mp hzero, Binary64.ofDecimal, if_pos rfl, ofBinary64,
      Binary64.truncate?_zero, Option.getD_some]
    exact wrap32_modEq 0
  · have hlog : n.natAbs.log2 ≤ 52 := by
      have := (Nat.log2_lt hzero).mpr hn
      omega
    rw [Binary64.ofDecimal_integer hzero, ofBinary64, Binary64.truncate?_of_log2_le hzero hlog,
      Option.getD_some, ← hsign]
    exact wrap32_modEq n

theorem exists_nearest (h : Literal n s) {p : Nat} (hp : 53 ≤ p) (hlow : 2 ^ p ≤ n.natAbs)
    (hhigh : n.natAbs < 2 ^ (p + 1)) :
    ∃ k, Ratio.Nearest n (2 ^ (p - 52)) k ∧ ofNumeral s ≡ k * 2 ^ (p - 52) [ZMOD 2 ^ 32] := by
  obtain ⟨negative, hs, hsign⟩ := h.ofNumeral_eq
  have hne : n.natAbs ≠ 0 := by
    have := Nat.two_pow_pos p
    omega
  have hlog : n.natAbs.log2 = p := (Nat.log2_eq_iff hne).mpr ⟨hlow, hhigh⟩
  refine ⟨signed negative (Ratio.nearestEven n.natAbs (2 ^ (p - 52))), ?_, ?_⟩
  · have hnear := (@Ratio.nearest_nearestEven n.natAbs _ (Nat.two_pow_pos (p - 52))).signed negative
    rw [← hsign] at hnear
    exact_mod_cast hnear
  · rw [ofNumeral, hs, Binary64.ofDecimal_integer hne,
      Binary64.ofRatio_of_lt_log2 hne (by omega) hlog]
    exact ofBinary64_ofRounded _ _ _

/-- 2^53 itself is still a double. -/
theorem ofNumeral_of_le (h : Literal n s) (hn : n.natAbs ≤ 2 ^ 53) :
    ofNumeral s ≡ n [ZMOD 2 ^ 32] := by
  rcases Nat.lt_or_eq_of_le hn with hlt | heq
  · exact ofNumeral_of_lt h hlt
  · obtain ⟨k, hk, hr⟩ := exists_nearest h (le_refl 53) heq.ge (by rw [heq]; decide)
    have heven : n = n / 2 * 2 ^ (53 - 52) := by omega
    rwa [hk.eq_of_multiple heven] at hr

theorem exists_leading (hn : 2 ^ 53 ≤ n.natAbs) :
    ∃ p, 53 ≤ p ∧ 2 ^ p ≤ n.natAbs ∧ n.natAbs < 2 ^ (p + 1) := by
  have hne : n.natAbs ≠ 0 := by omega
  exact ⟨n.natAbs.log2, (Nat.le_log2 hne).mpr hn, Nat.log2_self_le hne, Nat.lt_log2_self⟩

theorem unit_ne_zero (p : Nat) : (2 ^ (p - 52) : Int) ≠ 0 :=
  pow_ne_zero _ (by decide)

theorem ofNumeral_neg {s' : Text} (h : Literal n s) (h' : Literal (-n) s') :
    ofNumeral s' ≡ -ofNumeral s [ZMOD 2 ^ 32] := by
  by_cases hn : n.natAbs < 2 ^ 53
  · have hn' : (-n).natAbs < 2 ^ 53 := by rwa [Int.natAbs_neg]
    exact (ofNumeral_of_lt h' hn').trans (ofNumeral_of_lt h hn).neg.symm
  · obtain ⟨p, hp, hlow, hhigh⟩ := exists_leading (not_lt.mp hn)
    obtain ⟨k, hk, hr⟩ := exists_nearest h hp hlow hhigh
    rw [← Int.natAbs_neg] at hlow hhigh
    obtain ⟨k', hk', hr'⟩ := exists_nearest h' hp hlow hhigh
    rw [hk.neg.unique (unit_ne_zero p) hk', Int.neg_mul] at hr'
    exact hr'.trans hr.neg.symm

theorem ofNumeral_eq_zero (h : Literal n s) (hn : 2 ^ 84 ≤ n.natAbs) : ofNumeral s = 0 := by
  obtain ⟨p, hp, hlow, hhigh⟩ := exists_leading (le_trans (by decide) hn)
  obtain ⟨k, -, hr⟩ := exists_nearest h hp hlow hhigh
  have hlarge : 84 < p + 1 := (Nat.pow_lt_pow_iff_right (by decide)).mp (hn.trans_lt hhigh)
  have hunit : (2 ^ 32 : Int) ∣ 2 ^ (p - 52) := pow_dvd_pow 2 (by omega)
  have hdvd := Int.modEq_zero_iff_dvd.mp (hr.trans (Int.modEq_zero_iff_dvd.mpr (hunit.mul_left k)))
  obtain ⟨hmin, hmax⟩ : -2 ^ 31 ≤ ofNumeral s ∧ ofNumeral s < 2 ^ 31 := wrap32_range _
  omega

/-- An integer literal of any length is read as the nearest double and wrapped into 32 bits: up to
2^53 as the integer itself, above as the nearest multiple of its last place, and from 2^84 on as
zero. The negated literal is read as the negated integer. -/
theorem read_literal {n : Int} {literal : Text} (h : Literal n literal) :
    ∃ r, Int32.read literal = .ok r ∧ -2 ^ 31 ≤ r ∧ r < 2 ^ 31 ∧
      (n.natAbs ≤ 2 ^ 53 → r ≡ n [ZMOD 2 ^ 32]) ∧
      (∀ p : Nat, 53 ≤ p → 2 ^ p ≤ n.natAbs → n.natAbs < 2 ^ (p + 1) →
        (∃! k, Ratio.Nearest n (2 ^ (p - 52)) k) ∧
        ∀ k, Ratio.Nearest n (2 ^ (p - 52)) k → r ≡ k * 2 ^ (p - 52) [ZMOD 2 ^ 32]) ∧
      (2 ^ 84 ≤ n.natAbs → r = 0) ∧
      ∀ negated, Literal (-n) negated →
        ∃ r', Int32.read negated = .ok r' ∧ r' ≡ -r [ZMOD 2 ^ 32] := by
  obtain ⟨hmin, hmax⟩ : -2 ^ 31 ≤ ofNumeral literal ∧ ofNumeral literal < 2 ^ 31 := wrap32_range _
  refine ⟨ofNumeral literal, read_whole h.whole, hmin, hmax, ofNumeral_of_le h, ?_,
    ofNumeral_eq_zero h, ?_⟩
  · intro p hp hlow hhigh
    obtain ⟨k, hk, hr⟩ := exists_nearest h hp hlow hhigh
    have hunique : ∀ j, Ratio.Nearest n (2 ^ (p - 52)) j → j = k :=
      fun j hj => hk.unique (unit_ne_zero p) hj
    refine ⟨⟨k, hk, hunique⟩, fun j hj => ?_⟩
    rwa [hunique j hj]
  · intro negated h'
    exact ⟨ofNumeral negated, read_whole h'.whole, ofNumeral_neg h h'⟩

/-- Half way between two doubles above 2^53, with leading zeros. -/
theorem read_literal_tie :
    Literal (2 ^ 53 + 3) "+009007199254740995".toList ∧
      ∃ r, Int32.read "+009007199254740995".toList = .ok r ∧ r ≡ 4 [ZMOD 2 ^ 32] := by
  have h : Literal (2 ^ 53 + 3) "+009007199254740995".toList :=
    ⟨['+'], 2, 9007199254740995, Or.inr (Or.inl rfl), by decide, by decide⟩
  obtain ⟨r, hr, -, -, -, hlarge, -⟩ := read_literal h
  have hnear : Ratio.Nearest (2 ^ 53 + 3) (2 ^ (53 - 52)) (2 ^ 52 + 2) :=
    Ratio.Nearest.of_error (by decide) (by decide)
  have hmod := (hlarge 53 (by decide) (by decide) (by decide)).2 _ hnear
  exact ⟨h, r, hr, hmod.trans (by decide)⟩

end Int32

end StyleValue
