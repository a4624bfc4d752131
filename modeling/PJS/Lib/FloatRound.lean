import PJS.Lib.FloatOrder

/-! What rounding does to the numbers that floating point data stand for. A positive result is a
multiple of the unit in the last place of the exact one, at most half a unit away from it, and an
even one when it is half a unit away; so rounding is a function, it is monotone, and the exact
result is known up to a relative error. -/
namespace PJS.FloatOrder
open Float.Model
open Float.Model.UnpackedFloat

section Nearest
variable {S : Float.Model.Format} {x x' y y' : ℚ}

/-- The number `n * 2 ^ t` is a multiple of the unit in the last place of `x`, at most half a unit
away, and an even one if it is half a unit away. -/
structure RoundsAt (S : Float.Model.Format) (x : ℚ) (t : ℤ) (n : ℕ) : Prop where
  near : |n * 2 ^ t - x| ≤ 2 ^ t / 2
  even : |n * 2 ^ t - x| = 2 ^ t / 2 → Even n
  min_le : S.minExponent ≤ t
  lt : x < 2 ^ (t + S.mantissaBits)
  normal : t = S.minExponent ∨ 2 ^ (t + S.mantissaBitsWithoutImplicit) ≤ x

def Rounds (S : Float.Model.Format) (x y : ℚ) : Prop :=
  ∃ t n, RoundsAt S x t n ∧ y = n * 2 ^ t

theorem two_zpow_lt {a b : ℤ} (h : (2 : ℚ) ^ a < 2 ^ b) : a < b :=
  (zpow_lt_zpow_iff_right₀ (by norm_num)).mp h

theorem mantissaBits_eq (S : Float.Model.Format) :
    (S.mantissaBits : ℤ) = S.mantissaBitsWithoutImplicit + 1 := by
  unfold Float.Model.Format.mantissaBits
  push_cast
  ring

theorem two_zpow_add (a b : ℤ) : (2 : ℚ) ^ (a + b) = 2 ^ a * 2 ^ b :=
  zpow_add₀ (by norm_num) a b

/-- The multiple does not leave the binade upwards. -/
theorem RoundsAt.le {t : ℤ} {n : ℕ} (h : RoundsAt S x t n) : n ≤ 2 ^ S.mantissaBits := by
  have ht : (0 : ℚ) < 2 ^ t := by positivity
  have hlt := h.lt
  rw [two_zpow_add, zpow_natCast] at hlt
  have hnear := (abs_le.mp h.near).2
  have hn : ((n : ℚ) - 1 / 2) * 2 ^ t < 2 ^ S.mantissaBits * 2 ^ t := by linarith
  have hcast : (n : ℚ) < (2 ^ S.mantissaBits : ℕ) + 1 := by
    have := lt_of_mul_lt_mul_right hn ht.le
    push_cast
    linarith
  have hnat : n < 2 ^ S.mantissaBits + 1 := by exact_mod_cast hcast
  omega

/-- Nor downwards. -/
theorem RoundsAt.ge {t : ℤ} {n : ℕ} (h : RoundsAt S x t n) (hne : t ≠ S.minExponent) :
    2 ^ S.mantissaBitsWithoutImplicit ≤ n := by
  have ht : (0 : ℚ) < 2 ^ t := by positivity
  have hle := h.normal.resolve_left hne
  rw [two_zpow_add, zpow_natCast] at hle
  have hnear := (abs_le.mp h.near).1
  have hn : (2 ^ S.mantissaBitsWithoutImplicit : ℚ) * 2 ^ t ≤ (n + 1 / 2) * 2 ^ t := by linarith
  have hcast : ((2 ^ S.mantissaBitsWithoutImplicit : ℕ) : ℚ) < n + 1 := by
    have := le_of_mul_le_mul_right hn ht
    push_cast
    linarith
  have hnat : 2 ^ S.mantissaBitsWithoutImplicit < n + 1 := by exact_mod_cast hcast
  omega

/-- Rounding is monotone. -/
theorem Rounds.mono (h : Rounds S x y) (h' : Rounds S x' y') (hlt : x < x') : y ≤ y' := by
  obtain ⟨t, n, hn, rfl⟩ := h
  obtain ⟨t', n', hn', rfl⟩ := h'
  have hbits := mantissaBits_eq S
  rcases lt_trichotomy t t' with htt | rfl | htt
  · -- the smaller number ends where the binade of the larger one begins
    have hle : (n : ℚ) ≤ 2 ^ S.mantissaBits := by exact_mod_cast hn.le
    have hge : (2 : ℚ) ^ S.mantissaBitsWithoutImplicit ≤ n' := by
      have hmin := hn.min_le
      exact_mod_cast hn'.ge (by omega)
    calc (n : ℚ) * 2 ^ t ≤ 2 ^ S.mantissaBits * 2 ^ t := by gcongr
      _ = 2 ^ (S.mantissaBits + t) := by rw [two_zpow_add, zpow_natCast]
      _ ≤ 2 ^ (S.mantissaBitsWithoutImplicit + t') := by
          refine zpow_le_zpow_right₀ (by norm_num) ?_
          rw [hbits]
          omega
      _ = 2 ^ S.mantissaBitsWithoutImplicit * 2 ^ t' := by rw [two_zpow_add, zpow_natCast]
      _ ≤ n' * 2 ^ t' := by gcongr
  · have ht : (0 : ℚ) < 2 ^ t := by positivity
    have hnear := (abs_le.mp hn.near).2
    have hnear' := (abs_le.mp hn'.near).1
    have hsub : (n : ℚ) * 2 ^ t < (n' + 1) * 2 ^ t := by linarith
    have hcast : (n : ℚ) < n' + 1 := lt_of_mul_lt_mul_right hsub ht.le
    have hnat : n < n' + 1 := by exact_mod_cast hcast
    have hle : (n : ℚ) ≤ n' := by exact_mod_cast Nat.lt_succ_iff.mp hnat
    gcongr
  · exfalso
    have hmin := hn'.min_le
    have hle := hn.normal.resolve_left (by omega)
    have hpow := two_zpow_lt (lt_of_le_of_lt hle (hlt.trans hn'.lt))
    omega

/-- The binade of a number determines its unit in the last place. -/
theorem RoundsAt.exponent_unique {t t' : ℤ} {n n' : ℕ} (h : RoundsAt S x t n)
    (h' : RoundsAt S x t' n') : t = t' := by
  have hbits := mantissaBits_eq S
  rcases lt_trichotomy t t' with hlt | heq | hlt
  · have hmin := h.min_le
    have hpow := two_zpow_lt ((h'.normal.resolve_left (by omega)).trans_lt h.lt)
    omega
  · exact heq
  · have hmin := h'.min_le
    have hpow := two_zpow_lt ((h.normal.resolve_left (by omega)).trans_lt h'.lt)
    omega

theorem RoundsAt.unique {t : ℤ} {n n' : ℕ} (h : RoundsAt S x t n) (h' : RoundsAt S x t n') :
    n = n' := by
  wlog hle : n ≤ n' generalizing n n'
  · exact (this h' h (Nat.le_of_not_le hle)).symm
  by_contra hne
  have ht : (0 : ℚ) < 2 ^ t := by positivity
  have hsucc : (n : ℚ) + 1 ≤ n' := by
    have hlt : n + 1 ≤ n' := by omega
    exact_mod_cast hlt
  have hgap : (n : ℚ) * 2 ^ t + 2 ^ t ≤ n' * 2 ^ t := by
    have hmul := mul_le_mul_of_nonneg_right hsucc ht.le
    linarith
  have hlow := (abs_le.mp h.near).1
  have hhigh := (abs_le.mp h'.near).2
  -- both are half a unit away, so both are even, and one is the successor of the other
  have heven : Even n := h.even (by rw [abs_of_nonpos (by linarith)]; linarith)
  have heven' : Even n' := h'.even (by rw [abs_of_nonneg (by linarith)]; linarith)
  have hnext : n' = n + 1 := by
    have hle' : (n' : ℚ) * 2 ^ t ≤ (n + 1) * 2 ^ t := by linarith
    have hcast : (n' : ℚ) ≤ n + 1 := le_of_mul_le_mul_right hle' ht
    have hnat : n' ≤ n + 1 := by exact_mod_cast hcast
    omega
  rw [hnext] at heven'
  exact Nat.not_even_iff_odd.mpr heven.add_one heven'

/-- Rounding is a function. -/
theorem Rounds.unique (h : Rounds S x y) (h' : Rounds S x y') : y = y' := by
  obtain ⟨t, n, hn, rfl⟩ := h
  obtain ⟨t', n', hn', rfl⟩ := h'
  obtain rfl := hn.exponent_unique hn'
  rw [hn.unique hn']

theorem Rounds.nonneg (h : Rounds S x y) : 0 ≤ y := by
  obtain ⟨t, n, -, rfl⟩ := h
  positivity

theorem rounds_zero (S : Float.Model.Format) : Rounds S 0 0 := by
  refine ⟨S.minExponent, 0, ⟨?_, fun _ => ⟨0, rfl⟩, le_rfl, ?_, Or.inl rfl⟩, by simp⟩
  · rw [Nat.cast_zero, zero_mul, sub_zero, abs_zero]
    positivity
  · positivity

/-- A natural number that fits into the mantissa is a number of the format. -/
theorem rounds_natCast {n : ℕ} (hmin : S.minExponent + S.mantissaBitsWithoutImplicit ≤ 0)
    (hn : n < 2 ^ S.mantissaBits) : Rounds S n n := by
  rcases eq_or_ne n 0 with rfl | hne
  · rw [Nat.cast_zero]
    exact rounds_zero S
  have hbits := mantissaBits_eq S
  have hlog : Nat.log 2 n < S.mantissaBits := Nat.log_lt_of_lt_pow hne hn
  have hlow : ((2 ^ Nat.log 2 n : ℕ) : ℚ) ≤ n := Nat.cast_le.mpr (Nat.pow_log_le_self 2 hne)
  have hhigh : (n : ℚ) < (2 ^ (Nat.log 2 n + 1) : ℕ) :=
    Nat.cast_lt.mpr (Nat.lt_pow_succ_log_self (by norm_num) n)
  -- the unit that leaves the leading bit in its place
  set t : ℤ := Nat.log 2 n - S.mantissaBitsWithoutImplicit with ht
  have hshift : ((n * 2 ^ (-t).toNat : ℕ) : ℚ) * 2 ^ t = n := by
    have hneg : ((-t).toNat : ℤ) = -t := Int.toNat_of_nonneg (by omega)
    rw [Nat.cast_mul, Nat.cast_pow, Nat.cast_ofNat, ← zpow_natCast, hneg, mul_assoc,
      ← two_zpow_add, neg_add_cancel, zpow_zero, mul_one]
  refine ⟨t, n * 2 ^ (-t).toNat, ⟨?_, fun heven => ?_, by omega, ?_, Or.inr ?_⟩, hshift.symm⟩
  · rw [hshift, sub_self, abs_zero]
    positivity
  · rw [hshift, sub_self, abs_zero] at heven
    have hpos : (0 : ℚ) < 2 ^ t / 2 := by positivity
    exact absurd heven hpos.ne
  · rw [show t + S.mantissaBits = ((Nat.log 2 n + 1 : ℕ) : ℤ) by push_cast; omega, zpow_natCast]
    exact_mod_cast hhigh
  · rw [show t + S.mantissaBitsWithoutImplicit = (Nat.log 2 n : ℕ) by omega, zpow_natCast]
    exact_mod_cast hlow

/-- Above the least normal number the relative error is half a unit at most. -/
theorem Rounds.error (h : Rounds S x y)
    (hx : 2 ^ (S.minExponent + S.mantissaBitsWithoutImplicit) ≤ x) :
    |y - x| * 2 ^ S.mantissaBits ≤ x := by
  obtain ⟨t, n, hn, rfl⟩ := h
  have hle : (2 : ℚ) ^ (t + S.mantissaBitsWithoutImplicit) ≤ x := by
    rcases hn.normal with rfl | hle
    · exact hx
    · exact hle
  calc |n * 2 ^ t - x| * 2 ^ S.mantissaBits
      ≤ 2 ^ t / 2 * 2 ^ S.mantissaBits := by
        gcongr
        exact hn.near
    _ = 2 ^ (t + S.mantissaBitsWithoutImplicit) := by
        rw [two_zpow_add, zpow_natCast, Float.Model.Format.mantissaBits, pow_add]
        ring
    _ ≤ x := hle

end Nearest

section Located

/-- Where a number lies above a mantissa, as the datum says. -/
def Locates : Accuracy → ℕ → ℚ → Prop
  | .exact, m, z => z = m
  | .inexact .lt, m, z => (m : ℚ) < z ∧ z < m + 1 / 2
  | .inexact .eq, m, z => z = m + 1 / 2
  | .inexact .gt, m, z => (m : ℚ) + 1 / 2 < z ∧ z < m + 1

variable {a : Accuracy} {m : ℕ} {z : ℚ}

theorem Locates.bounds (h : Locates a m z) : (m : ℚ) ≤ z ∧ z < m + 1 := by
  rcases a with _ | _ | _ | _ <;> simp only [Locates] at h <;> constructor <;> linarith

theorem Locates.near (h : Locates a m z) : |(a.roundToNearestEven m : ℚ) - z| ≤ 1 / 2 := by
  have hparity : ((m % 2 : ℕ) : ℚ) ≤ 1 := by exact_mod_cast Nat.lt_succ_iff.mp (Nat.mod_lt m two_pos)
  have hnonneg : (0 : ℚ) ≤ ((m % 2 : ℕ) : ℚ) := Nat.cast_nonneg _
  rcases a with _ | _ | _ | _ <;> simp only [Locates] at h <;>
    simp only [Accuracy.roundToNearestEven, Nat.cast_add, Nat.cast_one] <;> rw [abs_le] <;>
    constructor <;> linarith

/-- Half way between two mantissas the even one is taken. -/
theorem Locates.even (h : Locates a m z)
    (hhalf : |(a.roundToNearestEven m : ℚ) - z| = 1 / 2) : Even (a.roundToNearestEven m) := by
  rcases a with _ | _ | _ | _ <;> simp only [Locates] at h <;>
    simp only [Accuracy.roundToNearestEven, Nat.cast_add, Nat.cast_one] at hhalf ⊢
  · rw [h, sub_self, abs_zero] at hhalf
    norm_num at hhalf
  · rw [abs_of_nonpos (by linarith)] at hhalf
    linarith
  · rw [Nat.even_add]
    rcases Nat.mod_two_eq_zero_or_one m with hpar | hpar
    · rw [hpar, Nat.even_iff]
      simp [hpar]
    · rw [hpar, Nat.even_iff]
      simp [hpar]
  · rw [abs_of_nonneg (by linarith)] at hhalf
    linarith

theorem accuracy_ofMantissaAndAccuracy (m : ℕ) (a : Accuracy) :
    (ExtendedMantissa.ofMantissaAndAccuracy m a).accuracy = a ∧
      (ExtendedMantissa.ofMantissaAndAccuracy m a).mantissa = m := by
  rcases a with _ | _ | _ | _ <;> exact ⟨rfl, rfl⟩

/-- A shift by one halves the number. -/
theorem locates_shiftRightOne {em : ExtendedMantissa} (h : Locates em.accuracy em.mantissa z) :
    Locates em.shiftRightOne.accuracy em.shiftRightOne.mantissa (z / 2) := by
  obtain ⟨m, r, s⟩ := em
  have hm : (m : ℚ) = 2 * ((m / 2 : ℕ) : ℚ) + ((m % 2 : ℕ) : ℚ) := by
    exact_mod_cast (Nat.div_add_mod m 2).symm
  have hodd : (1 != 0) = true := rfl
  rcases Nat.mod_two_eq_zero_or_one m with hpar | hpar <;> rw [hpar] at hm <;>
    push_cast at hm <;> cases r <;> cases s <;>
    simp only [ExtendedMantissa.shiftRightOne, ExtendedMantissa.accuracy, Locates, hpar, hodd,
      bne_self_eq_false, Bool.or_false, Bool.or_true] at h ⊢
  -- an even mantissa, then an odd one: the bit that is shifted out is the half
  · linarith
  · constructor <;> linarith
  · constructor <;> linarith
  · constructor <;> linarith
  · linarith
  · constructor <;> linarith
  · constructor <;> linarith
  · constructor <;> linarith

theorem locates_shiftRight {em : ExtendedMantissa} (h : Locates em.accuracy em.mantissa z) (n : ℕ) :
    Locates (em >>> n).accuracy (em >>> n).mantissa (z / 2 ^ n) := by
  induction n with
  | zero =>
    rw [pow_zero, div_one]
    exact h
  | succ n ih =>
    have hstep := locates_shiftRightOne ih
    rw [div_div, ← pow_succ] at hstep
    exact hstep

end Located

section Round
variable {S : Float.Model.Format} {a : Accuracy} {m n : ℕ} {e t : ℤ} {x z : ℚ}

/-- What a mantissa that may just have overflowed becomes: the same number in canonical form. -/
theorem shiftToTargetExponent_exact (ht : S.minExponent ≤ t) (hn : n ≤ 2 ^ S.mantissaBits)
    (hnormal : t = S.minExponent ∨ 2 ^ S.mantissaBitsWithoutImplicit ≤ n) :
    ∃ m' e', (shiftToTargetExponent S n t .exact).1.mantissa = m' ∧
      (shiftToTargetExponent S n t .exact).2 = e' ∧ (m' : ℚ) * 2 ^ e' = n * 2 ^ t ∧
      m' < 2 ^ S.mantissaBits ∧
      (2 ^ S.mantissaBitsWithoutImplicit ≤ m' ∨ e' = S.minExponent) ∧ S.minExponent ≤ e' := by
  have hbits := mantissaBits_eq S
  have hpow : 2 ^ S.mantissaBits = 2 * 2 ^ S.mantissaBitsWithoutImplicit := by
    rw [Float.Model.Format.mantissaBits, pow_add, pow_one]
  unfold shiftToTargetExponent shiftToExponent
  simp only
  rcases hn.lt_or_eq with hlt | heq
  · -- nothing is shifted out
    have hlog : n.log2 < S.mantissaBits := by
      rcases Nat.eq_zero_or_pos n with rfl | hpos
      · have hS := S.hm
        unfold Float.Model.Format.mantissaBits
        rw [Nat.log2_zero]
        omega
      · exact (Nat.log2_lt hpos.ne').mpr hlt
    have hshift : (S.targetExponent (totalExponent n t) - t).toNat = 0 := by
      unfold Float.Model.Format.targetExponent totalExponent
      omega
    rw [hshift]
    refine ⟨n, t, rfl, by simp, rfl, hlt, hnormal.symm, ht⟩
  · have hlog : n.log2 = S.mantissaBits := by rw [heq, Nat.log2_two_pow]
    have hshift : (S.targetExponent (totalExponent n t) - t).toNat = 1 := by
      unfold Float.Model.Format.targetExponent totalExponent
      omega
    rw [hshift]
    refine ⟨n / 2, t + 1, rfl, rfl, ?_, ?_, ?_, by omega⟩
    · have htwice : (n : ℚ) = ((n / 2 : ℕ) : ℚ) * 2 := by
        have hdvd : n / 2 * 2 = n := by omega
        exact_mod_cast hdvd.symm
      rw [two_zpow_add, zpow_one, htwice]
      ring
    · have hpos : 0 < 2 ^ S.mantissaBitsWithoutImplicit := by positivity
      omega
    · exact Or.inl (by omega)

/-- The first shift brings a located number to the unit in its last place. -/
theorem roundsAt_shift (hz : Locates a m z) (he : e ≤ S.targetExponent (totalExponent m e))
    (hm : m ≠ 0 ∨ S.targetExponent (totalExponent m e) = S.minExponent) :
    RoundsAt S (z * 2 ^ e) (S.targetExponent (totalExponent m e))
      (shiftToTargetExponent S m e a).1.roundedMantissa := by
  have hbits := mantissaBits_eq S
  unfold shiftToTargetExponent shiftToExponent
  simp only
  set t := S.targetExponent (totalExponent m e) with ht
  have hshift : e + ((t - e).toNat : ℤ) = t := by omega
  generalize (t - e).toNat = s at hshift ⊢
  obtain ⟨haccuracy, hmantissa⟩ := accuracy_ofMantissaAndAccuracy m a
  have hstart : Locates (ExtendedMantissa.ofMantissaAndAccuracy m a).accuracy
      (ExtendedMantissa.ofMantissaAndAccuracy m a).mantissa z := by
    rw [haccuracy, hmantissa]
    exact hz
  have hlocated := locates_shiftRight hstart s
  have hscale : z * 2 ^ e = z / 2 ^ s * 2 ^ t := by
    rw [← hshift, two_zpow_add, zpow_natCast]
    field_simp
  have htarget : S.minExponent ≤ t ∧ (m.log2 : ℤ) + 1 + e - S.mantissaBits ≤ t ∧
      (t = S.minExponent ∨ t = m.log2 + 1 + e - S.mantissaBits) := by
    rw [ht]
    unfold Float.Model.Format.targetExponent totalExponent
    omega
  have hp : (0 : ℚ) < 2 ^ t := by positivity
  refine ⟨?_, fun hhalf => hlocated.even ?_, htarget.1, ?_, ?_⟩
  · rw [hscale, ← sub_mul, abs_mul, abs_of_pos hp, div_eq_mul_one_div ((2 : ℚ) ^ t) 2, mul_comm]
    exact mul_le_mul_of_nonneg_left hlocated.near hp.le
  · rw [hscale, ← sub_mul, abs_mul, abs_of_pos hp, div_eq_mul_one_div ((2 : ℚ) ^ t) 2, mul_comm]
      at hhalf
    exact mul_left_cancel₀ hp.ne' hhalf
  · have hm1 : ((m : ℚ) + 1) ≤ 2 ^ (m.log2 + 1) := by exact_mod_cast Nat.lt_log2_self
    calc z * 2 ^ e < (m + 1) * 2 ^ e := by
          have hlt := hz.bounds.2
          gcongr
      _ ≤ 2 ^ (m.log2 + 1) * 2 ^ e := by gcongr
      _ = 2 ^ ((m.log2 + 1 : ℕ) + e) := by rw [two_zpow_add, zpow_natCast]
      _ ≤ 2 ^ (t + S.mantissaBits) := by
          refine zpow_le_zpow_right₀ (by norm_num) ?_
          push_cast
          omega
  · rcases htarget.2.2 with hmin | hnormal
    · exact Or.inl hmin
    · by_cases hmin : t = S.minExponent
      · exact Or.inl hmin
      · right
        have hne : m ≠ 0 := hm.resolve_right hmin
        have hlog : ((2 : ℚ) ^ m.log2) ≤ m := by exact_mod_cast Nat.log2_self_le hne
        calc (2 : ℚ) ^ (t + S.mantissaBitsWithoutImplicit) = 2 ^ ((m.log2 : ℕ) + e) := by
              congr 1
              omega
          _ = 2 ^ m.log2 * 2 ^ e := by rw [two_zpow_add, zpow_natCast]
          _ ≤ m * 2 ^ e := by gcongr
          _ ≤ z * 2 ^ e := by
              have hle := hz.bounds.1
              gcongr

/-- A magnitude with its sign. -/
def signed : Sign → ℚ → ℚ
  | .positive, y => y
  | .negative, y => -y

/-- Rounding a located number gives it rounded, in canonical form. -/
theorem roundWithAccuracy_rounds (s : Sign) (hz : Locates a m z)
    (he : e ≤ S.targetExponent (totalExponent m e))
    (hm : m ≠ 0 ∨ S.targetExponent (totalExponent m e) = S.minExponent) :
    ∃ y, Rounds S (z * 2 ^ e) y ∧
      exact (roundWithAccuracy S s m e a) =
        some ((signed s y : WithTop ℚ) : WithBot (WithTop ℚ)) ∧
      Canonical S (roundWithAccuracy S s m e a) := by
  have hround := roundsAt_shift hz he hm
  set t := S.targetExponent (totalExponent m e) with ht
  set n := (shiftToTargetExponent S m e a).1.roundedMantissa with hn
  have hexponent : (shiftToTargetExponent S m e a).2 = t := by
    unfold shiftToTargetExponent shiftToExponent
    simp only
    omega
  have hnormal : t = S.minExponent ∨ 2 ^ S.mantissaBitsWithoutImplicit ≤ n := by
    by_cases hmin : t = S.minExponent
    · exact Or.inl hmin
    · exact Or.inr (hround.ge hmin)
  obtain ⟨m', e', hm', he', hvalue, hlt, hcanonical, hmin⟩ :=
    shiftToTargetExponent_exact hround.min_le hround.le hnormal
  refine ⟨n * 2 ^ t, ⟨t, n, hround, rfl⟩, ?_⟩
  unfold roundWithAccuracy
  simp only [hexponent, ← hn, hm', he']
  split_ifs with hzero
  · subst hzero
    rw [Nat.cast_zero, zero_mul] at hvalue
    rw [← hvalue]
    cases s
    · exact ⟨by rw [signed, neg_zero]; rfl, trivial⟩
    · exact ⟨rfl, trivial⟩
  · refine ⟨?_, hlt, hcanonical, hmin⟩
    rw [← hvalue]
    cases s <;> simp [exact, Sign.apply, signed]

end Round

section Operations
variable {S : Float.Model.Format} {m₁ m₂ : ℕ} {e₁ e₂ : ℤ}

theorem log2_shiftLeft {n : ℕ} (hn : n ≠ 0) (k : ℕ) : (n <<< k).log2 = n.log2 + k := by
  have hpos : n <<< k ≠ 0 := by
    rw [Nat.shiftLeft_eq]
    positivity
  refine (Nat.log2_eq_iff hpos).mpr ⟨?_, ?_⟩
  · rw [Nat.shiftLeft_eq, pow_add]
    exact Nat.mul_le_mul_right _ (Nat.log2_self_le hn)
  · rw [Nat.shiftLeft_eq, add_right_comm, pow_add]
    exact Nat.mul_lt_mul_of_pos_right Nat.lt_log2_self (by positivity)

/-- A magnitude is converted by rounding it. -/
theorem round_rounds (s : Sign) {n : ℕ} (hn : n ≠ 0) :
    ∃ y, Rounds S n y ∧ exact (UnpackedFloat.round S s n 0) =
        some ((signed s y : WithTop ℚ) : WithBot (WithTop ℚ)) ∧
      Canonical S (UnpackedFloat.round S s n 0) := by
  unfold UnpackedFloat.round decreaseExponent
  simp only
  set t := S.targetExponent (totalExponent n 0) with ht
  set k := (0 - t).toNat with hk
  have htotal : totalExponent (n <<< k) (0 - (k : ℤ)) = totalExponent n 0 := by
    unfold totalExponent
    rw [log2_shiftLeft hn]
    omega
  have hlocated : Locates .exact (n <<< k) ((n <<< k : ℕ) : ℚ) := rfl
  have hne : n <<< k ≠ 0 := by
    rw [Nat.shiftLeft_eq]
    positivity
  have hround := @roundWithAccuracy_rounds S _ _ _ _ s hlocated
    (show 0 - (k : ℤ) ≤ _ by rw [htotal, ← ht]; omega) (Or.inl hne)
  have hvalue : ((n <<< k : ℕ) : ℚ) * 2 ^ (0 - (k : ℤ)) = n := by
    rw [Nat.shiftLeft_eq, zero_sub, zpow_neg, zpow_natCast]
    push_cast
    field_simp
  rwa [hvalue] at hround

theorem ofNat_rounds {n : ℕ} (hn : n ≠ 0) :
    ∃ y, Rounds S n y ∧ exact (UnpackedFloat.ofNat S n) = some ((y : WithTop ℚ) : WithBot (WithTop ℚ)) ∧
      Canonical S (UnpackedFloat.ofNat S n) := by
  have hsign : compare (n : ℤ) 0 = .gt := Int.compare_eq_gt.mpr (by omega)
  have heq : UnpackedFloat.ofNat S n = UnpackedFloat.round S .positive n 0 := by
    unfold UnpackedFloat.ofNat UnpackedFloat.ofInt UnpackedFloat.normalize
    rw [hsign]
    rfl
  rw [heq]
  exact round_rounds .positive hn

/-- An integer is converted by rounding its magnitude. -/
theorem ofInt_rounds (i : ℤ) :
    ∃ y, Rounds S |(i : ℚ)| |y| ∧ (0 ≤ i → 0 ≤ y) ∧ (i < 0 → y ≤ 0) ∧
      exact (UnpackedFloat.ofInt S i) = some ((y : WithTop ℚ) : WithBot (WithTop ℚ)) ∧
      Canonical S (UnpackedFloat.ofInt S i) := by
  unfold UnpackedFloat.ofInt UnpackedFloat.normalize
  rcases lt_trichotomy i 0 with hneg | rfl | hpos
  · obtain ⟨y, hy, hexact, hcanonical⟩ := @round_rounds S .negative (-i).toNat (by omega)
    have habs : (((-i).toNat : ℕ) : ℚ) = |(i : ℚ)| := by
      have hcast : (((-i).toNat : ℕ) : ℤ) = |i| := by
        rw [abs_of_neg hneg]
        omega
      rw [← Int.cast_abs, ← hcast, Int.cast_natCast]
    have hnonneg := hy.nonneg
    rw [habs] at hy
    rw [Int.compare_eq_lt.mpr hneg]
    refine ⟨-y, ?_, fun h => by omega, fun _ => by linarith, hexact, hcanonical⟩
    rwa [abs_neg, abs_of_nonneg hnonneg]
  · refine ⟨0, ?_, fun _ => le_rfl, fun _ => le_rfl, rfl, trivial⟩
    rw [Int.cast_zero, abs_zero]
    exact rounds_zero S
  · obtain ⟨y, hy, hexact, hcanonical⟩ := @round_rounds S .positive i.toNat (by omega)
    have habs : ((i.toNat : ℕ) : ℚ) = |(i : ℚ)| := by
      have hcast : ((i.toNat : ℕ) : ℤ) = |i| := by
        rw [abs_of_pos hpos]
        omega
      rw [← Int.cast_abs, ← hcast, Int.cast_natCast]
    have hnonneg := hy.nonneg
    rw [habs] at hy
    rw [Int.compare_eq_gt.mpr hpos]
    refine ⟨y, ?_, fun _ => hnonneg, fun h => by omega, hexact, hcanonical⟩
    rwa [abs_of_nonneg hnonneg]

/-- The remainder says where the quotient lies. -/
theorem locates_div (m : ℕ) {d : ℕ} (hd : 0 < d) :
    Locates (accuracyOfFraction (m % d) d) (m / d) ((m : ℚ) / d) := by
  have hdq : (0 : ℚ) < d := by exact_mod_cast hd
  have hsum : (m : ℚ) = d * (m / d : ℕ) + (m % d : ℕ) := by
    exact_mod_cast (Nat.div_add_mod m d).symm
  have hm : (m : ℚ) / d = (m / d : ℕ) + (m % d : ℕ) / d := by
    rw [div_eq_iff hdq.ne', add_mul, div_mul_cancel₀ _ hdq.ne', mul_comm]
    exact hsum
  have hmod : ((m % d : ℕ) : ℚ) < d := by exact_mod_cast Nat.mod_lt m hd
  rw [hm]
  unfold accuracyOfFraction
  generalize m % d = r at hmod
  generalize m / d = q
  split_ifs with hr
  · simp [Locates, hr]
  · have hpos : (0 : ℚ) < (r : ℚ) / d := by
      have hrpos : 0 < r := Nat.pos_of_ne_zero hr
      positivity
    have hone : (r : ℚ) / d < 1 := (div_lt_one hdq).mpr hmod
    rcases lt_trichotomy (2 * r) d with hlt | heq | hgt
    · rw [Nat.compare_eq_lt.mpr hlt]
      have hhalf : (r : ℚ) / d < 1 / 2 := by
        have hcast : (2 * r : ℚ) < d := by exact_mod_cast hlt
        rw [div_lt_div_iff₀ hdq two_pos]
        linarith
      constructor <;> linarith
    · rw [Nat.compare_eq_eq.mpr heq]
      have hhalf : (r : ℚ) / d = 1 / 2 := by
        have hcast : (2 * r : ℚ) = d := by exact_mod_cast heq
        rw [div_eq_div_iff hdq.ne' two_ne_zero]
        linarith
      rw [hhalf]
      rfl
    · rw [Nat.compare_eq_gt.mpr hgt]
      have hhalf : 1 / 2 < (r : ℚ) / d := by
        have hcast : (d : ℚ) < 2 * r := by exact_mod_cast hgt
        rw [div_lt_div_iff₀ two_pos hdq]
        linarith
      constructor <;> linarith

/-- A quotient is about as long as the difference of the lengths. -/
theorem le_log2_div {n d : ℕ} (hd : 0 < d) (h : d.log2 + 1 ≤ n.log2) :
    n / d ≠ 0 ∧ n.log2 - (d.log2 + 1) ≤ (n / d).log2 := by
  have hn : n ≠ 0 := by
    rintro rfl
    rw [Nat.log2_zero] at h
    omega
  have hpow : 2 ^ (n.log2 - (d.log2 + 1)) ≤ n / d := by
    rw [Nat.le_div_iff_mul_le hd]
    calc 2 ^ (n.log2 - (d.log2 + 1)) * d ≤ 2 ^ (n.log2 - (d.log2 + 1)) * 2 ^ (d.log2 + 1) :=
          Nat.mul_le_mul_left _ Nat.lt_log2_self.le
      _ = 2 ^ n.log2 := by rw [← pow_add, Nat.sub_add_cancel h]
      _ ≤ n := Nat.log2_self_le hn
  have hne : n / d ≠ 0 := by
    have hpos : 0 < 2 ^ (n.log2 - (d.log2 + 1)) := by positivity
    omega
  exact ⟨hne, (Nat.le_log2 hne).mpr hpow⟩

/-- The quotient has bits enough for the rounding that follows. -/
theorem divCore_enough (h₁ : m₁ ≠ 0) (h₂ : 0 < m₂) {g : ℤ}
    (hg : g = min (e₁ - e₂) (S.targetExponent (totalExponent m₁ e₁ - totalExponent m₂ e₂))) {q : ℕ}
    (hq : q = (m₁ <<< (e₁ - e₂ - g).toNat) / m₂) :
    g ≤ S.targetExponent (totalExponent q g) ∧
      (q ≠ 0 ∨ S.targetExponent (totalExponent q g) = S.minExponent) := by
  have hbits := mantissaBits_eq S
  have hlog := log2_shiftLeft h₁ (e₁ - e₂ - g).toNat
  unfold Float.Model.Format.targetExponent totalExponent at hg ⊢
  by_cases hlong : m₂.log2 + 1 ≤ m₁.log2 + (e₁ - e₂ - g).toNat
  · rw [← hlog] at hlong
    obtain ⟨hne, hle⟩ := le_log2_div h₂ hlong
    rw [← hq] at hne hle
    exact ⟨by omega, Or.inl hne⟩
  · -- the quotient is short only below the least exponent
    refine ⟨by omega, ?_⟩
    by_cases hzero : q = 0
    · right
      rw [hzero, Nat.log2_zero]
      omega
    · exact Or.inl hzero

/-- Division rounds the exact quotient. -/
theorem div_rounds {h₁ : 0 < m₁} {h₂ : 0 < m₂} :
    ∃ y, Rounds S ((m₁ * 2 ^ e₁) / (m₂ * 2 ^ e₂)) y ∧
      exact (UnpackedFloat.div S (.finite .positive m₁ e₁ h₁) (.finite .positive m₂ e₂ h₂)) =
        some ((y : WithTop ℚ) : WithBot (WithTop ℚ)) ∧
      Canonical S (UnpackedFloat.div S (.finite .positive m₁ e₁ h₁) (.finite .positive m₂ e₂ h₂)) := by
  unfold UnpackedFloat.div divCore
  simp only
  set g := min (e₁ - e₂) (S.targetExponent (totalExponent m₁ e₁ - totalExponent m₂ e₂)) with hg
  set k := (e₁ - e₂ - g).toNat with hk
  obtain ⟨hle, hne⟩ := divCore_enough h₁.ne' h₂ hg (q := (m₁ <<< k) / m₂) (by rw [hk])
  have hround := roundWithAccuracy_rounds .positive (locates_div (m₁ <<< k) h₂) hle hne
  have hexponent : e₁ = k + g + e₂ := by omega
  have hvalue : ((m₁ <<< k : ℕ) : ℚ) / m₂ * 2 ^ g = (m₁ * 2 ^ e₁) / (m₂ * 2 ^ e₂) := by
    have hm : (m₂ : ℚ) ≠ 0 := by exact_mod_cast h₂.ne'
    have he : (2 : ℚ) ^ e₂ ≠ 0 := by positivity
    rw [Nat.shiftLeft_eq, hexponent, two_zpow_add, two_zpow_add, zpow_natCast]
    push_cast
    field_simp
  rw [hvalue] at hround
  exact hround

end Operations

section Pack
variable {S : Float.Model.Format}

/-- Numbers from the first power of two that the exponent has no room for become infinite. -/
def capped (S : Float.Model.Format) (y : ℚ) : WithTop ℚ :=
  if 2 ^ (S.exponentBias + 1) ≤ y then ⊤ else (y : ℚ)

theorem capped_mono {y y' : ℚ} (h : y ≤ y') : capped S y ≤ capped S y' := by
  unfold capped
  split_ifs with hy hy'
  · exact le_refl _
  · exact absurd (hy.trans h) hy'
  · exact le_top
  · exact WithTop.coe_le_coe.mpr h

theorem capped_le {y q : ℚ} (h : capped S y ≤ (q : ℚ)) : capped S y = (y : ℚ) ∧ y ≤ q := by
  unfold capped at h ⊢
  split_ifs with hy
  · rw [if_pos hy, top_le_iff] at h
    exact absurd h WithTop.coe_ne_top
  · rw [if_neg hy] at h
    exact ⟨rfl, WithTop.coe_le_coe.mp h⟩

theorem unpackSign_packComponents {s : Sign} {e : BitVec S.exponentBits}
    {m : BitVec S.mantissaBitsWithoutImplicit} :
    unpackSign (packComponents S s e m) = s.toBitVec := by
  apply BitVec.eq_of_getLsbD_eq
  intro i hi
  have hzero : i = 0 := by omega
  subst hzero
  simp only [unpackSign, packComponents, BitVec.getLsbD_cast, BitVec.getLsbD_extractLsb,
    BitVec.getLsbD_append]
  grind

theorem ofBitVec_toBitVec (s : Sign) : Sign.ofBitVec s.toBitVec = s := by
  cases s <;> rfl

theorem two_pow_exponentBits (S : Float.Model.Format) :
    2 ^ S.exponentBits = 2 * S.exponentBias + 2 := by
  have hpos : 1 ≤ 2 ^ (S.exponentBits - 1) := Nat.one_le_two_pow
  have hsucc : S.exponentBits = S.exponentBits - 1 + 1 := by
    have he := S.he
    omega
  rw [hsucc, pow_succ, Float.Model.Format.exponentBias]
  omega

theorem unpack_packedInfinity (s : Sign) :
    UnpackedFloat.unpack S (packedInfinity S s) = .infinity s := by
  unfold UnpackedFloat.unpack packedInfinity
  simp only [unpackExponent_packComponents, unpackMantissa_packComponents,
    unpackSign_packComponents, ofBitVec_toBitVec, if_true]
  rfl

theorem neg_one_ne_zero (S : Float.Model.Format) : (0#S.exponentBits) ≠ -1#_ := by
  intro h
  have hn := congrArg BitVec.toNat h
  have hp := Nat.one_lt_two_pow S.he.ne'
  simp only [BitVec.toNat_zero, BitVec.neg_one_eq_allOnes, BitVec.toNat_allOnes] at hn
  omega

theorem unpack_packedZero (s : Sign) : UnpackedFloat.unpack S (packedZero S s) = .zero s := by
  unfold UnpackedFloat.unpack packedZero
  simp only [unpackExponent_packComponents, unpackMantissa_packComponents,
    unpackSign_packComponents, ofBitVec_toBitVec]
  exact (if_neg (neg_one_ne_zero S)).trans ((if_pos rfl).trans (dif_pos rfl))

/-- A number below the normal ones is stored as it is. -/
theorem exact_unpack_subnormal {s : Sign} {m : ℕ} (hm : 0 < m)
    (hlt : m < 2 ^ S.mantissaBitsWithoutImplicit) :
    exact (UnpackedFloat.unpack S (packComponents S s 0#_ (BitVec.ofNat _ m))) =
      exact (.finite s m S.minExponent hm) := by
  have hmod : m % 2 ^ S.mantissaBitsWithoutImplicit = m := Nat.mod_eq_of_lt hlt
  have hne : BitVec.ofNat S.mantissaBitsWithoutImplicit m ≠ 0#_ := by
    intro h
    have hn := congrArg BitVec.toNat h
    rw [BitVec.toNat_ofNat, hmod, BitVec.toNat_zero] at hn
    omega
  unfold UnpackedFloat.unpack
  simp only [unpackExponent_packComponents, unpackMantissa_packComponents,
    unpackSign_packComponents, ofBitVec_toBitVec]
  rw [if_neg (neg_one_ne_zero S), if_true, dif_neg hne]
  have hexponent : ((0 % 2 ^ S.exponentBits : ℕ) : ℤ) -
      (S.exponentBias + S.mantissaBitsWithoutImplicit) + 1 = S.minExponent := by
    rw [minExponent_eq, Nat.zero_mod]
    push_cast
    ring
  simp only [BitVec.toNat_ofNat, hmod, hexponent]

/-- A normal number is stored without its leading bit. -/
theorem exact_unpack_normal {s : Sign} {m b : ℕ} (hm : 0 < m)
    (hge : 2 ^ S.mantissaBitsWithoutImplicit ≤ m) (hlt : m < 2 * 2 ^ S.mantissaBitsWithoutImplicit)
    (hb : 0 < b) (hbound : b + 1 < 2 ^ S.exponentBits) :
    exact (UnpackedFloat.unpack S
        (packComponents S s (BitVec.ofNat _ b) (BitVec.ofNat _ m))) =
      exact (.finite s m (b - (S.exponentBias + S.mantissaBitsWithoutImplicit)) hm) := by
  have hmod : b % 2 ^ S.exponentBits = b := Nat.mod_eq_of_lt (by omega)
  have hone : BitVec.ofNat S.exponentBits b ≠ -1#_ := by
    intro h
    have hn := congrArg BitVec.toNat h
    rw [BitVec.toNat_ofNat, hmod, BitVec.neg_one_eq_allOnes, BitVec.toNat_allOnes] at hn
    omega
  have hzero : BitVec.ofNat S.exponentBits b ≠ 0#_ := by
    intro h
    have hn := congrArg BitVec.toNat h
    rw [BitVec.toNat_ofNat, hmod, BitVec.toNat_zero] at hn
    omega
  have hrest : 2 ^ S.mantissaBitsWithoutImplicit + m % 2 ^ S.mantissaBitsWithoutImplicit = m := by
    rw [Nat.mod_eq_sub_mod hge, Nat.mod_eq_of_lt (by omega)]
    omega
  unfold UnpackedFloat.unpack
  simp only [unpackExponent_packComponents, unpackMantissa_packComponents,
    unpackSign_packComponents, ofBitVec_toBitVec]
  rw [if_neg hone, if_neg hzero]
  simp only [append_implicit, BitVec.toNat_ofNat, hmod, hrest]

theorem exact_finite {m : ℕ} {e : ℤ} (hm : 0 < m) : exact (.finite .positive m e hm) =
    some (((m * 2 ^ e : ℚ) : WithTop ℚ) : WithBot (WithTop ℚ)) := by
  simp only [exact, Sign.apply, Int.cast_natCast]

/-- Packing a canonical number keeps its value, or makes it infinite. -/
theorem exact_unpack_pack_finite (hS : 0 < S.exponentBias) {s : Sign} {m : ℕ} {e : ℤ} {hm : 0 < m}
    (hu : Canonical S (.finite s m e hm)) :
    exact (UnpackedFloat.unpack S (UnpackedFloat.pack S (.finite s m e hm))) =
      if (2 : ℚ) ^ (S.exponentBias + 1) ≤ m * 2 ^ e then exact (.infinity s)
      else exact (.finite s m e hm) := by
  obtain ⟨hlt, hnormal, hle⟩ := hu
  have hbits : S.mantissaBits = S.mantissaBitsWithoutImplicit + 1 := Nat.add_comm _ _
  have hexp := two_pow_exponentBits S
  rw [minExponent_eq] at hnormal hle
  have hpow : 2 ^ S.mantissaBits = 2 * 2 ^ S.mantissaBitsWithoutImplicit := by
    rw [hbits, pow_succ, mul_comm]
  set packed := if (2 : ℚ) ^ (S.exponentBias + 1) ≤ m * 2 ^ e then exact (.infinity s)
    else exact (.finite s m e hm) with hpacked
  unfold UnpackedFloat.pack
  simp only
  split_ifs with hover hfull
  · -- no room for the exponent
    have hge : (2 : ℚ) ^ S.mantissaBitsWithoutImplicit ≤ m := by
      exact_mod_cast hnormal.resolve_right (by omega)
    have hcap : (2 : ℚ) ^ (S.exponentBias + 1) ≤ m * 2 ^ e := by
      calc (2 : ℚ) ^ (S.exponentBias + 1)
          = 2 ^ ((S.exponentBias + 1 : ℕ) : ℤ) := (zpow_natCast _ _).symm
        _ ≤ 2 ^ ((S.mantissaBitsWithoutImplicit : ℤ) + e) :=
            zpow_le_zpow_right₀ (by norm_num) (by omega)
        _ = 2 ^ S.mantissaBitsWithoutImplicit * 2 ^ e := by rw [two_zpow_add, zpow_natCast]
        _ ≤ m * 2 ^ e := by gcongr
    rw [unpack_packedInfinity, hpacked, if_pos hcap]
  · have hlog : m.log2 = S.mantissaBitsWithoutImplicit := by omega
    have hge : 2 ^ S.mantissaBitsWithoutImplicit ≤ m := hlog ▸ Nat.log2_self_le hm.ne'
    have hcap : (m : ℚ) * 2 ^ e < 2 ^ (S.exponentBias + 1) := by
      have hmq : (m : ℚ) < 2 ^ S.mantissaBits := by exact_mod_cast hlt
      calc (m : ℚ) * 2 ^ e < 2 ^ S.mantissaBits * 2 ^ e := by gcongr
        _ = 2 ^ ((S.mantissaBits : ℤ) + e) := by rw [two_zpow_add, zpow_natCast]
        _ ≤ 2 ^ ((S.exponentBias + 1 : ℕ) : ℤ) :=
            zpow_le_zpow_right₀ (by norm_num) (by omega)
        _ = 2 ^ (S.exponentBias + 1) := zpow_natCast _ _
    rw [exact_unpack_normal hm hge (by omega) (by omega) (by omega), hpacked,
      if_neg hcap.not_ge]
    congr 2
    omega
  · have hsmall : m < 2 ^ S.mantissaBitsWithoutImplicit := by
      rw [← Nat.log2_lt hm.ne'] at hlt ⊢
      omega
    have he : e = S.minExponent := by
      rw [minExponent_eq]
      exact hnormal.resolve_left (by omega)
    have hcap : (m : ℚ) * 2 ^ e < 2 ^ (S.exponentBias + 1) := by
      have hmq : (m : ℚ) < 2 ^ S.mantissaBitsWithoutImplicit := by exact_mod_cast hsmall
      calc (m : ℚ) * 2 ^ e < 2 ^ S.mantissaBitsWithoutImplicit * 2 ^ e := by gcongr
        _ = 2 ^ ((S.mantissaBitsWithoutImplicit : ℤ) + e) := by rw [two_zpow_add, zpow_natCast]
        _ ≤ 2 ^ ((S.exponentBias + 1 : ℕ) : ℤ) := by
            refine zpow_le_zpow_right₀ (by norm_num) ?_
            rw [he, minExponent_eq]
            omega
        _ = 2 ^ (S.exponentBias + 1) := zpow_natCast _ _
    rw [exact_unpack_subnormal hm hsmall, hpacked, if_neg hcap.not_ge]
    subst he
    rfl

theorem exact_unpack_pack (hS : 0 < S.exponentBias) {u : UnpackedFloat} {y : ℚ}
    (hu : Canonical S u) (hy : exact u = some ((y : WithTop ℚ) : WithBot (WithTop ℚ)))
    (hnonneg : 0 ≤ y) :
    exact (UnpackedFloat.unpack S (UnpackedFloat.pack S u)) =
      some (capped S y : WithBot (WithTop ℚ)) := by
  rcases u with (_ | _) | _ | s | ⟨_ | _, m, e, hm⟩
  · simp [exact] at hy
  · simp [exact] at hy
  · simp [exact] at hy
  · have hzero : y = 0 := by
      simp only [exact, Option.some.injEq, WithBot.coe_inj, WithTop.coe_inj] at hy
      exact hy.symm
    have hcap : ¬ (2 : ℚ) ^ (S.exponentBias + 1) ≤ 0 := by
      have hpos : (0 : ℚ) < 2 ^ (S.exponentBias + 1) := by positivity
      exact hpos.not_ge
    rw [UnpackedFloat.pack, unpack_packedZero, hzero, capped, if_neg hcap]
    rfl
  · exfalso
    have hneg : (0 : ℚ) < m * 2 ^ e := by positivity
    simp only [exact, Option.some.injEq, WithBot.coe_inj, WithTop.coe_inj, Sign.apply] at hy
    push_cast at hy
    linarith
  · have hy' := hy
    rw [exact_finite, Option.some.injEq, WithBot.coe_inj, WithTop.coe_inj] at hy'
    rw [exact_unpack_pack_finite hS hu, hy', hy, capped]
    split_ifs <;> rfl

/-- Packing keeps the value of a number that is within the range of the format. -/
theorem exact_unpack_pack_small (hS : 0 < S.exponentBias) {u : UnpackedFloat} {y : ℚ}
    (hu : Canonical S u) (hy : exact u = some ((y : WithTop ℚ) : WithBot (WithTop ℚ)))
    (hsmall : |y| < 2 ^ (S.exponentBias + 1)) :
    exact (UnpackedFloat.unpack S (UnpackedFloat.pack S u)) =
      some ((y : WithTop ℚ) : WithBot (WithTop ℚ)) := by
  rcases u with (_ | _) | _ | s | ⟨s, m, e, hm⟩
  · simp [exact] at hy
  · simp [exact] at hy
  · simp [exact] at hy
  · rw [UnpackedFloat.pack, unpack_packedZero]
    exact hy
  · have hmagnitude : (m : ℚ) * 2 ^ e = |y| := by
      have hpos : (0 : ℚ) ≤ m * 2 ^ e := by positivity
      simp only [exact, Option.some.injEq, WithBot.coe_inj, WithTop.coe_inj] at hy
      cases s <;> simp only [Sign.apply] at hy <;> push_cast at hy <;> rw [← hy]
      · rw [neg_mul, abs_neg, abs_of_nonneg hpos]
      · rw [abs_of_nonneg hpos]
    rw [exact_unpack_pack_finite hS hu, hmagnitude, if_neg hsmall.not_ge]
    exact hy


end Pack

section Native
variable {f g : Float} {x y : ℚ}

theorem value_pack {u : UnpackedFloat} (hu : Canonical .binary64 u)
    (hy : exact u = some ((y : WithTop ℚ) : WithBot (WithTop ℚ))) (hnonneg : 0 ≤ y) :
    value (.ofModel (.pack u)) = some (capped .binary64 y : WithBot (WithTop ℚ)) :=
  exact_unpack_pack (by decide) hu hy hnonneg

/-- A positive rational value is a mantissa and an exponent. -/
theorem unpack_of_value (h : value f = some ((x : WithTop ℚ) : WithBot (WithTop ℚ))) (hx : 0 < x) :
    ∃ m e hm, f.toModel.unpack = .finite .positive m e hm ∧ x = m * 2 ^ e := by
  unfold value at h
  rcases hf : f.toModel.unpack with (_ | _) | _ | s | ⟨_ | _, m, e, hm⟩ <;>
    rw [hf] at h <;>
    simp only [exact, Option.some.injEq, WithBot.coe_inj, WithTop.coe_inj, reduceCtorEq,
      Sign.apply] at h
  · simp at h
  · exact absurd h (by simp)
  · exact absurd h hx.ne
  · exfalso
    have hneg : (0 : ℚ) < m * 2 ^ e := by positivity
    push_cast at h
    linarith
  · exact ⟨m, e, hm, rfl, h.symm.trans (by push_cast; rfl)⟩

/-- Floats of one value are one float, unless they are zeros. -/
theorem eq_of_value (hf : value f = some ((x : WithTop ℚ) : WithBot (WithTop ℚ)))
    (hg : value g = some ((x : WithTop ℚ) : WithBot (WithTop ℚ))) (hx : 0 < x) : f = g := by
  have hcompare := compare_eq hf hg
  rw [cmp_self_eq_eq] at hcompare
  rcases eq_or_oppositeZeros ((beq_iff_compare f g).mpr hcompare) with heq | hzero
  · exact heq
  · exfalso
    cases hzero with
    | posNeg =>
      obtain ⟨_, _, _, hu, -⟩ := unpack_of_value hf hx
      rw [unpack_posZero] at hu
      cases hu
    | negPos =>
      obtain ⟨_, _, _, hu, -⟩ := unpack_of_value hf hx
      rw [unpack_negZero] at hu
      cases hu

/-- The quotient of two positive numbers. -/
theorem value_div (hf : value f = some ((x : WithTop ℚ) : WithBot (WithTop ℚ)))
    (hg : value g = some ((y : WithTop ℚ) : WithBot (WithTop ℚ))) (hx : 0 < x) (hy : 0 < y) :
    ∃ z, Rounds .binary64 (x / y) z ∧
      value (f / g) = some (capped .binary64 z : WithBot (WithTop ℚ)) := by
  obtain ⟨m₁, e₁, h₁, hfu, rfl⟩ := unpack_of_value hf hx
  obtain ⟨m₂, e₂, h₂, hgu, rfl⟩ := unpack_of_value hg hy
  obtain ⟨z, hz, hexact, hcanonical⟩ := @div_rounds .binary64 m₁ m₂ e₁ e₂ h₁ h₂
  refine ⟨z, hz, ?_⟩
  have hdiv : f / g = .ofModel (.pack
      (UnpackedFloat.div .binary64 f.toModel.unpack g.toModel.unpack)) := rfl
  rw [hdiv, hfu, hgu]
  exact value_pack hcanonical hexact hz.nonneg

theorem rat_ne_top (x : ℚ) : ((x : WithTop ℚ) : WithBot (WithTop ℚ)) ≠ ⊤ := by
  rw [← WithBot.coe_top, Ne, WithBot.coe_inj]
  exact WithTop.coe_ne_top

/-- An infinite dividend. -/
theorem value_top_div (hf : value f = some ⊤)
    (hg : value g = some ((y : WithTop ℚ) : WithBot (WithTop ℚ))) (hy : 0 < y) :
    value (f / g) = some ⊤ := by
  have hfu : f.toModel.unpack = .infinity .positive := by
    unfold value at hf
    rcases hu : f.toModel.unpack with (_ | _) | _ | s | ⟨_ | _, m, e, hm⟩ <;>
      rw [hu] at hf <;> simp only [exact, Option.some.injEq, reduceCtorEq] at hf
    · exact absurd hf bot_ne_top
    · exact absurd hf (rat_ne_top 0)
    · exact absurd hf (rat_ne_top _)
    · exact absurd hf (rat_ne_top _)
  obtain ⟨m₂, e₂, h₂, hgu, rfl⟩ := unpack_of_value hg hy
  have hdiv : f / g = .ofModel (.pack
      (UnpackedFloat.div .binary64 f.toModel.unpack g.toModel.unpack)) := rfl
  have hinfinity : UnpackedFloat.div .binary64 (.infinity .positive)
      (.finite .positive m₂ e₂ h₂) = .infinity .positive := rfl
  rw [hdiv, hfu, hgu, hinfinity]
  exact congrArg exact (unpack_packedInfinity .positive)

/-- The float a natural number is converted to. -/
def natFloat (n : ℕ) : Float := .ofModel (.ofNat n)

theorem value_natFloat {n : ℕ} (hn : n ≠ 0) : ∃ y, Rounds .binary64 n y ∧
    value (natFloat n) = some (capped .binary64 y : WithBot (WithTop ℚ)) := by
  obtain ⟨y, hy, hexact, hcanonical⟩ := @ofNat_rounds .binary64 n hn
  exact ⟨y, hy, value_pack hcanonical hexact hy.nonneg⟩

theorem capped_cases (S : Float.Model.Format) (y : ℚ) : capped S y = ⊤ ∨ capped S y = (y : ℚ) := by
  unfold capped
  split_ifs
  · exact Or.inl rfl
  · exact Or.inr rfl

/-- A positive natural number is converted up to a relative error of `2 ^ -53`. -/
theorem Rounds.natFloat_error {n : ℕ} (h : Rounds .binary64 n y) (hn : n ≠ 0) :
    |y - n| * 2 ^ 53 ≤ n ∧ 0 < y := by
  have hone : (1 : ℚ) ≤ n := by exact_mod_cast Nat.one_le_iff_ne_zero.mpr hn
  have herror := h.error ((zpow_le_one_of_nonpos₀ (by norm_num) (by decide)).trans hone)
  have hbits : Float.Model.Format.mantissaBits .binary64 = 53 := rfl
  rw [hbits] at herror
  have habs := neg_abs_le (y - n)
  exact ⟨herror, by linarith⟩

/-- A machine integer is within the range of the format. -/
theorem capped_of_lt {n : ℕ} (h : Rounds .binary64 n y) (hn : n ≠ 0) (hlt : n < 2 ^ 64) :
    capped .binary64 y = (y : ℚ) := by
  have hn64 : (n : ℚ) < 2 ^ 64 := by exact_mod_cast hlt
  have herror := (h.natFloat_error hn).1
  have habs := le_abs_self (y - n)
  have hle : y ≤ 2 ^ 65 := by linarith
  have hcap : ¬ (2 : ℚ) ^ (Float.Model.Format.exponentBias .binary64 + 1) ≤ y := by
    refine not_le.mpr (hle.trans_lt ?_)
    exact pow_lt_pow_right₀ (by norm_num) (by decide)
  rw [capped, if_neg hcap]

/-- A signed machine integer is converted by rounding its magnitude. -/
theorem value_ofInt64 (i : Int64) : ∃ y : ℚ, Rounds .binary64 |(i.toInt : ℚ)| |y| ∧
    (0 ≤ i.toInt → 0 ≤ y) ∧ (i.toInt < 0 → y ≤ 0) ∧
      value (.ofModel (.ofInt64 i)) = some ((y : WithTop ℚ) : WithBot (WithTop ℚ)) := by
  obtain ⟨y, hy, hpos, hneg, hexact, hcanonical⟩ := @ofInt_rounds .binary64 i.toInt
  refine ⟨y, hy, hpos, hneg, exact_unpack_pack_small (by decide) hcanonical hexact ?_⟩
  rw [← Int.cast_abs, ← Nat.cast_natAbs] at hy
  rcases eq_or_ne i.toInt.natAbs 0 with hzero | hne
  · rw [hzero, Nat.cast_zero] at hy
    rw [hy.unique (rounds_zero _)]
    positivity
  · have hlow : -9223372036854775808 ≤ i.toInt := i.le_toInt
    have hhigh : i.toInt < 9223372036854775808 := i.toInt_lt
    have hcap := capped_of_lt hy hne (by omega)
    rw [capped] at hcap
    split_ifs at hcap with hlarge
    · exact absurd hcap.symm WithTop.coe_ne_top
    · exact lt_of_not_ge hlarge

/-- A signed integer that fits into the mantissa is converted exactly. -/
theorem value_ofInt64_of_lt {i : Int64} (h : i.toInt.natAbs < 2 ^ 53) :
    value (.ofModel (.ofInt64 i)) =
      some (((i.toInt : ℚ) : WithTop ℚ) : WithBot (WithTop ℚ)) := by
  obtain ⟨y, hy, hpos, hneg, hvalue⟩ := value_ofInt64 i
  have hexact : Rounds .binary64 |(i.toInt : ℚ)| |(i.toInt : ℚ)| := by
    rw [← Int.cast_abs, ← Nat.cast_natAbs]
    exact rounds_natCast (by decide) h
  have habs : |y| = |(i.toInt : ℚ)| := hy.unique hexact
  rw [hvalue]
  congr
  rcases lt_or_ge i.toInt 0 with hi | hi
  · have hcast : (i.toInt : ℚ) ≤ 0 := by exact_mod_cast hi.le
    rw [abs_of_nonpos (hneg hi), abs_of_nonpos hcast] at habs
    exact neg_injective habs
  · have hcast : (0 : ℚ) ≤ i.toInt := by exact_mod_cast hi
    rwa [abs_of_nonneg (hpos hi), abs_of_nonneg hcast] at habs

/-- The quotient of two sizes, as machine code computes it. -/
def ratio (d c : ℕ) : Float := natFloat d / natFloat c

variable {c d d' : ℕ}

/-- The quotient is infinite, or rounds the quotient of the two converted sizes. -/
theorem ratio_cases (hc : c ≠ 0) (hlt : c < 2 ^ 64) (hd : d ≠ 0) :
    ∃ x y, Rounds .binary64 d x ∧ Rounds .binary64 c y ∧
      value (natFloat d) = some (capped .binary64 x : WithBot (WithTop ℚ)) ∧
      value (natFloat c) = some ((y : WithTop ℚ) : WithBot (WithTop ℚ)) ∧
      (capped .binary64 x = ⊤ ∧ value (ratio d c) = some ⊤ ∨
        capped .binary64 x = (x : ℚ) ∧ ∃ z, Rounds .binary64 (x / y) z ∧
          value (ratio d c) = some (capped .binary64 z : WithBot (WithTop ℚ))) := by
  obtain ⟨x, hx, hxv⟩ := value_natFloat hd
  obtain ⟨y, hy, hyv⟩ := value_natFloat hc
  rw [capped_of_lt hy hc hlt] at hyv
  refine ⟨x, y, hx, hy, hxv, hyv, ?_⟩
  have hxpos := (hx.natFloat_error hd).2
  have hypos := (hy.natFloat_error hc).2
  rcases capped_cases .binary64 x with htop | hfinite
  · rw [htop] at hxv
    exact Or.inl ⟨htop, value_top_div hxv hyv hypos⟩
  · rw [hfinite] at hxv
    exact Or.inr ⟨hfinite, value_div hxv hyv hxpos hypos⟩

theorem value_ratio_zero (hc : c ≠ 0) (hlt : c < 2 ^ 64) :
    value (ratio 0 c) = some ((0 : WithTop ℚ) : WithBot (WithTop ℚ)) := by
  obtain ⟨y, hy, hyv⟩ := value_natFloat hc
  rw [capped_of_lt hy hc hlt] at hyv
  obtain ⟨m, e, hm, hu, -⟩ := unpack_of_value hyv (hy.natFloat_error hc).2
  have hdiv : ratio 0 c = .ofModel (.pack
      (UnpackedFloat.div .binary64 (natFloat 0).toModel.unpack (natFloat c).toModel.unpack)) := rfl
  have hzero : (natFloat 0).toModel.unpack = .zero .positive := rfl
  rw [hdiv, hzero, hu]
  exact congrArg exact (unpack_packedZero .positive)

/-- The quotient is monotone in the dividend. -/
theorem value_ratio_mono (hc : c ≠ 0) (hlt : c < 2 ^ 64) (hd : d ≠ 0) (hle : d ≤ d') :
    ∃ v v', value (ratio d c) = some v ∧ value (ratio d' c) = some v' ∧ v ≤ v' := by
  obtain ⟨x, y, hx, hy, hxv, hyv, hcases⟩ := ratio_cases hc hlt hd
  obtain ⟨x', y', hx', hy', hxv', hyv', hcases'⟩ := ratio_cases hc hlt (d := d') (by omega)
  have hyy : y = y' := by
    rw [hyv, Option.some.injEq, WithBot.coe_inj, WithTop.coe_inj] at hyv'
    exact hyv'
  subst hyy
  have hypos := (hy.natFloat_error hc).2
  rcases hle.eq_or_lt with rfl | hdd
  · rcases hcases with ⟨-, hv⟩ | ⟨-, z, -, hv⟩
    · exact ⟨_, _, hv, hv, le_refl _⟩
    · exact ⟨_, _, hv, hv, le_refl _⟩
  have hxx : x ≤ x' := hx.mono hx' (by exact_mod_cast hdd)
  rcases hcases' with ⟨-, hv'⟩ | ⟨hfinite', z', hz', hv'⟩
  · rcases hcases with ⟨-, hv⟩ | ⟨-, z, -, hv⟩
    · exact ⟨_, _, hv, hv', le_top⟩
    · exact ⟨_, _, hv, hv', le_top⟩
  rcases hcases with ⟨htop, -⟩ | ⟨hfinite, z, hz, hv⟩
  · -- the greater dividend would be infinite too
    have hmono := @capped_mono .binary64 _ _ hxx
    rw [htop, hfinite', top_le_iff] at hmono
    exact absurd hmono WithTop.coe_ne_top
  · rcases hxx.eq_or_lt with rfl | hlt'
    · rw [hfinite] at hxv hxv'
      have hsame : natFloat d = natFloat d' := eq_of_value hxv hxv' (hx.natFloat_error hd).2
      have hratio : ratio d c = ratio d' c := by
        unfold ratio
        rw [hsame]
      rw [hratio] at hv
      exact ⟨_, _, hratio ▸ hv, hv, le_refl _⟩
    · have hzz := hz.mono hz' (div_lt_div_of_pos_right hlt' hypos)
      exact ⟨_, _, hv, hv', WithBot.coe_le_coe.mpr (capped_mono hzz)⟩

/-- A limit that the quotient is above of stays below it when the dividend grows. -/
theorem lt_ratio_mono {limit : Float} (hc : c ≠ 0) (hlt : c < 2 ^ 64) (hd : d ≠ 0) (hle : d ≤ d')
    (h : limit < ratio d c) : limit < ratio d' c := by
  obtain ⟨v, v', hv, hv', hvv⟩ := value_ratio_mono hc hlt hd hle
  rcases hlimit : value limit with _ | q
  · exact absurd h (not_lt_of_isNaN (Or.inl hlimit))
  · exact (lt_iff hlimit hv').mpr (((lt_iff hlimit hv).mp h).trans_le hvv)

/-- What a limit that the quotient is not above of says about the sizes: the two conversions and
the division lose three times `2 ^ -53` at most. -/
theorem le_of_not_lt_ratio {limit : Float} {q : ℚ} (hc : c ≠ 0) (hlt : c < 2 ^ 64)
    (hlimit : value limit = some ((q : WithTop ℚ) : WithBot (WithTop ℚ)))
    (h : ¬ limit < ratio d c) : (2 ^ 53 - 3) * (d : ℚ) ≤ 2 ^ 53 * (q * c) := by
  have hcpos : (0 : ℚ) < c := by exact_mod_cast Nat.pos_of_ne_zero hc
  by_cases hd : d = 0
  · subst hd
    rw [lt_iff hlimit (value_ratio_zero hc hlt), not_lt, WithBot.coe_le_coe] at h
    have hq : 0 ≤ q := WithTop.coe_le_coe.mp h
    rw [Nat.cast_zero, mul_zero]
    positivity
  obtain ⟨x, y, hx, hy, -, -, ⟨-, hv⟩ | ⟨-, z, hz, hv⟩⟩ := ratio_cases hc hlt hd
  · rw [lt_iff hlimit hv, not_lt, top_le_iff] at h
    exact absurd h (rat_ne_top q)
  rw [lt_iff hlimit hv, not_lt, WithBot.coe_le_coe] at h
  have hzq := (capped_le h).2
  obtain ⟨hxerror, hxpos⟩ := hx.natFloat_error hd
  obtain ⟨hyerror, hypos⟩ := hy.natFloat_error hc
  have hnormal : (2 : ℚ) ^ (-66 : ℤ) ≤ x / y := by
    have hd1 : (1 : ℚ) ≤ d := by exact_mod_cast Nat.one_le_iff_ne_zero.mpr hd
    have hc64 : (c : ℚ) < 2 ^ 64 := by exact_mod_cast hlt
    have hxabs := neg_abs_le (x - d)
    have hyabs := le_abs_self (y - c)
    rw [le_div_iff₀ hypos, zpow_neg, inv_mul_le_iff₀ (by positivity)]
    norm_num
    linarith
  have hzerror := hz.error (le_trans (zpow_le_zpow_right₀ (by norm_num) (by decide)) hnormal)
  have hbits : Float.Model.Format.mantissaBits .binary64 = 53 := rfl
  rw [hbits] at hzerror
  have hquot : (x - z * y) * 2 ^ 53 ≤ x := by
    have hzabs := neg_abs_le (z - x / y)
    have hle : (x / y - z) * 2 ^ 53 ≤ x / y := by linarith
    calc (x - z * y) * 2 ^ 53 = (x / y - z) * 2 ^ 53 * y := by field_simp
      _ ≤ x / y * y := mul_le_mul_of_nonneg_right hle hypos.le
      _ = x := div_mul_cancel₀ x hypos.ne'
  have hzy : z * y ≤ q * y := mul_le_mul_of_nonneg_right hzq hypos.le
  have hq : 0 ≤ q := hz.nonneg.trans hzq
  have hqy : q * (y * 2 ^ 53) ≤ q * (c * (2 ^ 53 + 1)) := by
    have hyabs := le_abs_self (y - c)
    exact mul_le_mul_of_nonneg_left (by linarith) hq
  have hxabs := neg_abs_le (x - d)
  have hscaled : (2 ^ 53 - 3) * (2 ^ 53 + 1) * (d : ℚ) ≤ (2 ^ 53 + 1) * (2 ^ 53 * (q * c)) := by
    have hdpos : (0 : ℚ) ≤ d := Nat.cast_nonneg d
    linarith
  have hcancel : (2 ^ 53 + 1) * ((2 ^ 53 - 3) * (d : ℚ)) ≤ (2 ^ 53 + 1) * (2 ^ 53 * (q * c)) := by
    linarith
  exact le_of_mul_le_mul_left hcancel (by norm_num)

end Native

end PJS.FloatOrder
