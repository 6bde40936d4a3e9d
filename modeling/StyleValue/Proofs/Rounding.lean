import Mathlib.Data.Int.ModEq
import Mathlib.Tactic.Ring
import StyleValue.Numeric.Binary64

/-! # Integers in double precision

An integer below 2^53 is a double. Any other is read as the nearest multiple of a power of two, a
tie as the even multiple, or as an infinity. -/

namespace StyleValue

namespace Ratio

/-- The multiple of `unit` nearest to `n` is `k * unit`. In a tie `k` is even. -/
structure Nearest (n unit k : Int) : Prop where
  least : ∀ j, (n - k * unit).natAbs ≤ (n - j * unit).natAbs
  even : ∀ j, j ≠ k → (n - j * unit).natAbs = (n - k * unit).natAbs → k % 2 = 0

variable {n unit k : Int}

theorem natAbs_le_of_ne {j : Int} (h : j ≠ k) :
    unit.natAbs ≤ (k * unit - j * unit).natAbs := by
  rw [← Int.sub_mul, Int.natAbs_mul]
  exact Nat.le_mul_of_pos_left _ (Int.natAbs_pos.mpr (by omega))

theorem Nearest.of_error (h : 2 * (n - k * unit).natAbs ≤ unit.natAbs)
    (heven : 2 * (n - k * unit).natAbs = unit.natAbs → k % 2 = 0) : Nearest n unit k := by
  constructor
  · intro j
    by_cases hj : j = k
    · rw [hj]
    · have hfar := @natAbs_le_of_ne unit k j hj
      omega
  · intro j hj htie
    have hfar := @natAbs_le_of_ne unit k j hj
    exact heven (by omega)

theorem Nearest.error (hu : unit ≠ 0) (h : Nearest n unit k) :
    2 * (n - k * unit).natAbs ≤ unit.natAbs := by
  have hnext := h.least (k + 1)
  have hlast := h.least (k - 1)
  rw [Int.add_mul, Int.one_mul] at hnext
  rw [Int.sub_mul, Int.one_mul] at hlast
  omega

theorem Nearest.unique {j : Int} (hu : unit ≠ 0) (h : Nearest n unit k) (h' : Nearest n unit j) :
    j = k := by
  by_contra hj
  have hfar := @natAbs_le_of_ne unit k j hj
  have herror := h.error hu
  have herror' := h'.error hu
  have htie : (n - j * unit).natAbs = (n - k * unit).natAbs := by omega
  have heven := h.even j hj htie
  have heven' := h'.even k (Ne.symm hj) htie.symm
  -- Both are half a unit away, so they are neighbours and not both even.
  have htwice : (k * unit - j * unit).natAbs < 2 * unit.natAbs := by omega
  rw [← Int.sub_mul, Int.natAbs_mul] at htwice
  have hnear := Nat.lt_of_mul_lt_mul_right htwice
  omega

theorem Nearest.neg (h : Nearest n unit k) : Nearest (-n) unit (-k) := by
  have hneg : ∀ j : Int, (-n - -j * unit).natAbs = (n - j * unit).natAbs := by
    intro j
    rw [Int.neg_mul, ← Int.natAbs_neg]
    congr 1
    omega
  constructor
  · intro j
    rw [hneg, ← Int.neg_neg j, hneg]
    exact h.least (-j)
  · intro j hj htie
    rw [hneg, ← Int.neg_neg j, hneg] at htie
    have heven := h.even (-j) (by omega) htie
    omega

theorem Nearest.eq_of_multiple {j : Int} (hn : n = j * unit) (h : Nearest n unit k) :
    k * unit = n := by
  have hleast := h.least j
  omega

theorem nearest_nearestEven {num den : Nat} (hd : 0 < den) :
    Nearest num den (nearestEven num den) := by
  have hsplit : (num : Int) = (num / den : Nat) * den + (num % den : Nat) := by
    exact_mod_cast (Nat.div_add_mod' num den).symm
  have hlt := Nat.mod_lt num hd
  simp only [nearestEven]
  generalize num / den = below at *
  generalize num % den = left at *
  split
  · have he : (num : Int) - (below + 1 : Nat) * den = left - den := by
      rw [hsplit]
      push_cast
      ring
    apply Nearest.of_error
    · rw [he]
      omega
    · rw [he]
      omega
  · have he : (num : Int) - (below : Nat) * den = left := by
      rw [hsplit]
      ring
    apply Nearest.of_error
    · rw [he]
      omega
    · rw [he]
      omega

theorem floorLog2_one {n : Nat} (h : n ≠ 0) : floorLog2 n 1 = n.log2 := by
  have hone : (1 : Nat).log2 = 0 := by decide
  simp [floorLog2, hone, Nat.log2_self_le h]

theorem nearestEven_one (n : Nat) : nearestEven n 1 = n := by
  simp [nearestEven, Nat.mod_one]

end Ratio

def signed (negative : Bool) (size : Nat) : Int := if negative then -size else size

theorem natAbs_signed (negative : Bool) (size : Nat) : (signed negative size).natAbs = size := by
  cases negative <;> simp [signed]

namespace Binary64

variable {n : Nat}

theorem lt_of_log2_le (h : n.log2 ≤ 52) : n * 2 ^ (52 - n.log2) < 2 ^ 53 := by
  have hlt : n < 2 ^ (n.log2 + 1) := Nat.lt_log2_self
  calc n * 2 ^ (52 - n.log2) < 2 ^ (n.log2 + 1) * 2 ^ (52 - n.log2) :=
        Nat.mul_lt_mul_of_pos_right hlt (Nat.two_pow_pos _)
    _ = 2 ^ (n.log2 + 1 + (52 - n.log2)) := (Nat.pow_add 2 _ _).symm
    _ = 2 ^ 53 := by rw [show n.log2 + 1 + (52 - n.log2) = 53 by omega]

/-- An integer with at most 53 bits is a double. -/
theorem ofRatio_of_log2_le (hn : n ≠ 0) (h : n.log2 ≤ 52) (negative : Bool) :
    ofRatio negative n 1 = .finite negative (n * 2 ^ (52 - n.log2)) (n.log2 - 52) := by
  have hmax : max ((n.log2 : Int) - 52) minExponent = n.log2 - 52 := by
    rw [minExponent]
    omega
  have hup : (-((n.log2 : Int) - 52)).toNat = 52 - n.log2 := by omega
  have hdown : ((n.log2 : Int) - 52).toNat = 0 := by omega
  have hcarry : n * 2 ^ (52 - n.log2) ≠ 2 ^ 53 := (lt_of_log2_le h).ne
  have hfinite : ¬ maxExponent < (n.log2 : Int) - 52 := by
    rw [maxExponent]
    omega
  simp only [ofRatio, if_neg hn, Ratio.floorLog2_one hn, hmax, hup, hdown, Nat.pow_zero,
    Nat.mul_one, Ratio.nearestEven_one, ofRounded, if_neg hcarry, if_neg hfinite]

/-- An integer with more than 53 bits is rounded to a multiple of its last place. -/
theorem ofRatio_of_lt_log2 {p : Nat} (hn : n ≠ 0) (hp : 52 < p) (hlog : n.log2 = p)
    (negative : Bool) :
    ofRatio negative n 1 =
      ofRounded negative (Ratio.nearestEven n (2 ^ (p - 52))) (p - 52 : Nat) := by
  have hmax : max ((p : Int) - 52) minExponent = (p - 52 : Nat) := by
    rw [minExponent]
    omega
  have hup : (-((p - 52 : Nat) : Int)).toNat = 0 := by omega
  have hdown : ((p - 52 : Nat) : Int).toNat = p - 52 := by omega
  simp only [ofRatio, if_neg hn, Ratio.floorLog2_one hn, hlog, hmax, hup, hdown, Nat.pow_zero,
    Nat.mul_one, Nat.one_mul]

theorem truncate?_of_log2_le (hn : n ≠ 0) (h : n.log2 ≤ 52) (negative : Bool) :
    (ofRatio negative n 1).truncate? = some (signed negative n) := by
  have hup : (-((n.log2 : Int) - 52)).toNat = 52 - n.log2 := by omega
  have hdown : ((n.log2 : Int) - 52).toNat = 0 := by omega
  have hdiv : n * 2 ^ (52 - n.log2) / 2 ^ (52 - n.log2) = n :=
    Nat.mul_div_cancel _ (Nat.two_pow_pos _)
  simp only [ofRatio_of_log2_le hn h, truncate?, hup, hdown, Nat.pow_zero, Nat.mul_one, hdiv,
    signed]

/-- A carry to the next exponent does not change the value. -/
theorem truncate?_ofRounded (negative : Bool) (mantissa exponent : Nat) :
    (ofRounded negative mantissa exponent).truncate? =
        some (signed negative (mantissa * 2 ^ exponent)) ∨
      (ofRounded negative mantissa exponent).truncate? = none ∧ 971 ≤ exponent := by
  have hfinite : ∀ m e : Nat, (finite negative m e).truncate? =
      some (signed negative (m * 2 ^ e)) := by
    intro m e
    simp [truncate?, signed]
  simp only [ofRounded]
  by_cases hcarry : mantissa = 2 ^ 53
  · simp only [if_pos hcarry]
    split
    · next he =>
      rw [maxExponent] at he
      exact Or.inr ⟨rfl, by omega⟩
    · have hvalue : mantissa * 2 ^ exponent = 2 ^ 52 * 2 ^ (exponent + 1) := by
        rw [hcarry, ← Nat.pow_add, ← Nat.pow_add]
        congr 1
        omega
      rw [hvalue]
      exact Or.inl (hfinite _ (exponent + 1))
  · simp only [if_neg hcarry]
    split
    · next he =>
      rw [maxExponent] at he
      exact Or.inr ⟨rfl, by omega⟩
    · exact Or.inl (hfinite _ _)

theorem truncate?_zero (negative : Bool) : (zero negative).truncate? = some 0 := by
  simp [zero, truncate?]

theorem ofDecimal_integer (hn : n ≠ 0) (negative : Bool) :
    ofDecimal ⟨negative, n, 0⟩ = ofRatio negative n 1 := by
  have hsmall : ¬ (0 : Int) < -400 - n.log2 := by omega
  simp only [ofDecimal, if_neg hn, if_neg hsmall]
  simp

end Binary64

end StyleValue
