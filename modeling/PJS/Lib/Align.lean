import Mathlib

/-! Rounding up to a power of two, and the same by a mask in words of `w` bits. -/
namespace PJS

/-- The least multiple of `a` that is not below `n`. -/
def roundUp (a n : ℕ) : ℕ := (n + (a - 1)) / a * a

/-- `!x` in words of `w` bits. -/
def complement (w x : ℕ) : ℕ := 2 ^ w - 1 - x

section Rounding

variable {a n w : ℕ}

theorem dvd_roundUp : a ∣ roundUp a n := Dvd.intro_left _ rfl

theorem le_roundUp (ha : 0 < a) : n ≤ roundUp a n := by
  have hdiv := Nat.div_add_mod (n + (a - 1)) a
  have hmod := Nat.mod_lt (n + (a - 1)) ha
  rw [Nat.mul_comm] at hdiv
  unfold roundUp
  omega

theorem roundUp_of_dvd (ha : 0 < a) (h : a ∣ n) : roundUp a n = n := by
  obtain ⟨q, rfl⟩ := h
  have hdiv : (a * q + (a - 1)) / a = q := by
    rw [Nat.mul_add_div ha, Nat.div_eq_of_lt (by omega), Nat.add_zero]
  unfold roundUp
  rw [hdiv, Nat.mul_comm]

/-- Masking with the complement of the predecessor of a power of two clears the bits below it. -/
theorem and_complement (ha : a.isPowerOfTwo) (haw : a ≤ 2 ^ w) (hn : n < 2 ^ w) :
    n &&& complement w (a - 1) = n / a * a := by
  obtain ⟨k, rfl⟩ := ha
  have hpos : 0 < 2 ^ k := Nat.two_pow_pos k
  have hcomplement : complement w (2 ^ k - 1) = 2 ^ w - ((2 ^ k - 1) + 1) := by
    unfold complement
    omega
  apply Nat.eq_of_testBit_eq
  intro i
  rw [hcomplement, Nat.testBit_and, Nat.testBit_two_pow_sub_succ (by omega),
    Nat.testBit_two_pow_sub_one, ← Nat.shiftRight_eq_div_pow, ← Nat.shiftLeft_eq,
    Nat.testBit_shiftLeft, Nat.testBit_shiftRight]
  by_cases hik : i < k
  · simp [hik]
  · have hkeep : k + (i - k) = i := by omega
    by_cases hiw : i < w
    · simp [hik, hiw, hkeep, not_lt.mp hik]
    · -- no bit of the word stands that high
      have hzero : n.testBit i = false :=
        Nat.testBit_lt_two_pow (hn.trans_le (Nat.pow_le_pow_right (by decide) (not_lt.mp hiw)))
      simp [hkeep, hzero]

/-- Adding the predecessor and masking rounds up, where the sum fits in a word. -/
theorem mask_eq_roundUp (ha : a.isPowerOfTwo) (haw : a ≤ 2 ^ w) (hn : n + (a - 1) < 2 ^ w) :
    (n + (a - 1)) &&& complement w (a - 1) = roundUp a n :=
  and_complement ha haw hn

end Rounding

end PJS
