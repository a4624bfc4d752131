import Mathlib

/-! What comparing two floating point data means. A datum is unpacked into sign, mantissa and
exponent; distinct bit patterns unpack differently, and the native comparison, which looks at the
exponents first, orders unpacked data as the numbers they stand for. -/
namespace PJS.FloatOrder
open Float.Model
open Float.Model.UnpackedFloat

section Unpack
variable {S : Float.Model.Format}

theorem toBitVec_ofBitVec (b : BitVec 1) : (Sign.ofBitVec b).toBitVec = b := by
  have hb : b = 0#1 ∨ b = 1#1 := by
    have := b.isLt
    rcases Nat.lt_or_ge b.toNat 1 with h | h
    · exact Or.inl (BitVec.eq_of_toNat_eq (by simp; omega))
    · exact Or.inr (BitVec.eq_of_toNat_eq (by simp; omega))
  rcases hb with rfl | rfl <;> rfl

/-- A bit pattern is its three components. -/
theorem packComponents_unpack (b : BitVec S.numBits) :
    packComponents S (Sign.ofBitVec (unpackSign b)) (unpackExponent b) (unpackMantissa b) = b := by
  have hm := S.hm
  have he := S.he
  apply BitVec.eq_of_getLsbD_eq
  intro i hi
  simp only [packComponents, toBitVec_ofBitVec, BitVec.getLsbD_append, unpackSign, unpackExponent,
    unpackMantissa, BitVec.getLsbD_cast, BitVec.getLsbD_extractLsb]
  grind

theorem components_ext {b c : BitVec S.numBits}
    (hs : Sign.ofBitVec (unpackSign b) = Sign.ofBitVec (unpackSign c))
    (he : unpackExponent b = unpackExponent c) (hm : unpackMantissa b = unpackMantissa c) :
    b = c := by
  rw [← packComponents_unpack b, hs, he, hm, packComponents_unpack]

theorem append_implicit {f : ℕ} (m : BitVec f) : (1#1 ++ m).toNat = 2 ^ f + m.toNat := by
  rw [BitVec.toNat_append, ← Nat.shiftLeft_add_eq_or_of_lt m.isLt]
  simp [Nat.shiftLeft_eq]

/-- The four shapes of an unpacked datum, with the components they come from. -/
theorem unpack_cases (b : BitVec S.numBits) :
    (unpackExponent b = -1#_ ∧ unpackMantissa b = 0#_ ∧
      unpack S b = .infinity (.ofBitVec (unpackSign b))) ∨
    (unpackExponent b = -1#_ ∧ unpackMantissa b ≠ 0#_ ∧ unpack S b = .notANumber) ∨
    (unpackExponent b = 0#_ ∧ unpackMantissa b = 0#_ ∧
      unpack S b = .zero (.ofBitVec (unpackSign b))) ∨
    (∃ h, unpackExponent b = 0#_ ∧
      unpack S b = .finite (.ofBitVec (unpackSign b)) (unpackMantissa b).toNat
        (1 - (S.exponentBias + S.mantissaBitsWithoutImplicit)) h) ∨
    (∃ h, unpackExponent b ≠ 0#_ ∧
      unpack S b = .finite (.ofBitVec (unpackSign b))
        (2 ^ S.mantissaBitsWithoutImplicit + (unpackMantissa b).toNat)
        ((unpackExponent b).toNat - (S.exponentBias + S.mantissaBitsWithoutImplicit)) h) := by
  have hz : (0#S.exponentBits) ≠ -1#_ := by
    intro h
    have hn := congrArg BitVec.toNat h
    have hp := Nat.one_lt_two_pow S.he.ne'
    simp only [BitVec.toNat_zero, BitVec.neg_one_eq_allOnes, BitVec.toNat_allOnes] at hn
    omega
  unfold Float.Model.UnpackedFloat.unpack
  by_cases he : unpackExponent b = -1#_
  · by_cases hm : unpackMantissa b = 0#_
    · exact Or.inl ⟨he, hm, by simp only [he, hm, if_true]⟩
    · exact Or.inr (Or.inl ⟨he, hm, by simp only [he, hm, if_true, if_false]⟩)
  · by_cases h0 : unpackExponent b = 0#_
    · by_cases hm : unpackMantissa b = 0#_
      · refine Or.inr (Or.inr (Or.inl ⟨h0, hm, ?_⟩))
        simp only [h0, hm, hz, if_true, if_false, dif_pos]
      · have hpos : 0 < (unpackMantissa b).toNat := by
          simpa [BitVec.toNat_pos, BitVec.pos_iff_ne_zero] using hm
        refine Or.inr (Or.inr (Or.inr (Or.inl ⟨hpos, h0, ?_⟩)))
        simp only [h0, hm, hz, if_true, if_false, dif_neg, not_false_eq_true, BitVec.toNat_zero]
        congr 1
        push_cast
        ring
    · have hpos : 0 < 2 ^ S.mantissaBitsWithoutImplicit + (unpackMantissa b).toNat := by positivity
      refine Or.inr (Or.inr (Or.inr (Or.inr ⟨hpos, h0, ?_⟩)))
      simp only [he, h0, if_false, append_implicit]

/-- Patterns of numbers and infinities are determined by what they unpack to. -/
theorem unpack_injective {b c : BitVec S.numBits} (h : unpack S b = unpack S c)
    (hb : unpack S b ≠ .notANumber) : b = c := by
  have hlt := (unpackMantissa b).isLt
  have hlt' := (unpackMantissa c).isLt
  rcases unpack_cases b with ⟨eb, mb, ub⟩ | ⟨-, -, ub⟩ | ⟨eb, mb, ub⟩ | ⟨_, eb, ub⟩ | ⟨_, -, ub⟩ <;>
    rcases unpack_cases c with
      ⟨ec, mc, uc⟩ | ⟨-, -, uc⟩ | ⟨ec, mc, uc⟩ | ⟨_, ec, uc⟩ | ⟨_, -, uc⟩ <;>
    rw [ub, uc] at h <;>
    simp only [infinity.injEq, zero.injEq, finite.injEq, reduceCtorEq] at h
  -- the shapes agree, and below the two finite ones the implicit bit tells them apart
  · exact components_ext h (eb.trans ec.symm) (mb.trans mc.symm)
  · exact absurd ub hb
  · exact components_ext h (eb.trans ec.symm) (mb.trans mc.symm)
  · exact components_ext h.1 (eb.trans ec.symm) (BitVec.eq_of_toNat_eq h.2.1)
  · omega
  · omega
  · obtain ⟨hs, hm, he⟩ := h
    exact components_ext hs (BitVec.eq_of_toNat_eq (by omega)) (BitVec.eq_of_toNat_eq (by omega))

end Unpack

section Order
variable {S : Float.Model.Format}

/-- An unpacked number keeps its mantissa within the format, and normal unless its exponent is
the least one. -/
def Canonical (S : Float.Model.Format) : UnpackedFloat → Prop
  | .finite _ m e _ => m < 2 ^ S.mantissaBits ∧
      (2 ^ S.mantissaBitsWithoutImplicit ≤ m ∨ e = S.minExponent) ∧ S.minExponent ≤ e
  | _ => True

theorem minExponent_eq (S : Float.Model.Format) :
    S.minExponent = 1 - (S.exponentBias + S.mantissaBitsWithoutImplicit : ℤ) := by
  have hp : 1 ≤ 2 ^ (S.exponentBits - 1) := Nat.one_le_two_pow
  unfold Float.Model.Format.minExponent Float.Model.Format.exponentBias
    Float.Model.Format.mantissaBits
  rw [Nat.cast_sub hp]
  push_cast
  ring

theorem canonical_unpack (b : BitVec S.numBits) : Canonical S (unpack S b) := by
  have hlt := (unpackMantissa b).isLt
  have hbits : 2 ^ S.mantissaBits = 2 * 2 ^ S.mantissaBitsWithoutImplicit := by
    rw [Float.Model.Format.mantissaBits, pow_add, pow_one]
  rcases unpack_cases b with ⟨-, -, ub⟩ | ⟨-, -, ub⟩ | ⟨-, -, ub⟩ | ⟨_, -, ub⟩ | ⟨_, eb, ub⟩ <;>
    rw [ub]
  · trivial
  · trivial
  · trivial
  · exact ⟨by omega, Or.inr (minExponent_eq S).symm, (minExponent_eq S).le⟩
  · have hpos : (unpackExponent b).toNat ≠ 0 := fun h => eb (BitVec.eq_of_toNat_eq h)
    refine ⟨by omega, Or.inl (by omega), ?_⟩
    rw [minExponent_eq]
    omega

/-- The number an unpacked datum stands for, on the rational line with both ends. -/
def exact : UnpackedFloat → Option (WithBot (WithTop ℚ))
  | .notANumber => none
  | .infinity .positive => some ⊤
  | .infinity .negative => some ⊥
  | .zero _ => some ((0 : ℚ) : WithTop ℚ)
  | .finite s m e _ => some (((s.apply m : ℤ) * (2 : ℚ) ^ e : ℚ) : WithTop ℚ)

/-- Between canonical numbers the greater exponent decides. -/
theorem magnitude_lt {s t : Sign} {m n : ℕ} {e f : ℤ} {hm : 0 < m} {hn : 0 < n}
    (ha : Canonical S (.finite s m e hm)) (hb : Canonical S (.finite t n f hn)) (hef : e < f) :
    (m : ℚ) * 2 ^ e < n * 2 ^ f := by
  obtain ⟨hmu, -, hel⟩ := ha
  obtain ⟨-, hnl, -⟩ := hb
  have hnl : 2 ^ S.mantissaBitsWithoutImplicit ≤ n := hnl.resolve_right (by omega)
  have hbits : S.mantissaBits = S.mantissaBitsWithoutImplicit + 1 := Nat.add_comm _ _
  have hmq : (m : ℚ) < 2 ^ (S.mantissaBitsWithoutImplicit + 1) := by
    rw [hbits] at hmu
    exact_mod_cast hmu
  have hnq : (2 : ℚ) ^ S.mantissaBitsWithoutImplicit ≤ n := by exact_mod_cast hnl
  calc (m : ℚ) * 2 ^ e
      < 2 ^ (S.mantissaBitsWithoutImplicit + 1) * 2 ^ e := by gcongr
    _ = 2 ^ S.mantissaBitsWithoutImplicit * 2 ^ (e + 1) := by
        rw [zpow_add₀ (by norm_num : (2 : ℚ) ≠ 0), pow_succ, zpow_one]
        ring
    _ ≤ n * 2 ^ f := by
        gcongr
        · norm_num
        · omega

theorem compare_magnitude {s t : Sign} {m n : ℕ} {e f : ℤ} {hm : 0 < m} {hn : 0 < n}
    (ha : Canonical S (.finite s m e hm)) (hb : Canonical S (.finite t n f hn)) :
    (compare e f).then (compare m n) = cmp ((m : ℚ) * 2 ^ e) (n * 2 ^ f) := by
  rcases lt_trichotomy e f with h | rfl | h
  · rw [Int.compare_eq_lt.mpr h, (cmp_eq_lt_iff _ _).mpr (magnitude_lt ha hb h)]
    rfl
  · have hp : (0 : ℚ) < 2 ^ e := by positivity
    rw [Int.compare_eq_eq.mpr rfl, cmp_mul_pos_right hp, (Nat.strictMono_cast (α := ℚ)).cmp_map_eq,
      cmp_eq_compare]
    rfl
  · rw [Int.compare_eq_gt.mpr h, (cmp_eq_gt_iff _ _).mpr (magnitude_lt hb ha h)]
    rfl

/-- Negation reverses the order of two magnitudes. -/
theorem cmp_neg_neg (x y : ℚ) : cmp (-x) (-y) = (cmp x y).swap := by
  rw [cmp_swap]
  rcases lt_trichotomy x y with h | rfl | h
  · rw [(cmp_eq_gt_iff _ _).mpr (neg_lt_neg h), (cmp_eq_gt_iff _ _).mpr h]
  · rw [cmp_self_eq_eq, cmp_self_eq_eq]
  · rw [(cmp_eq_lt_iff _ _).mpr (neg_lt_neg h), (cmp_eq_lt_iff _ _).mpr h]

theorem cmp_coe (x y : ℚ) :
    cmp (((x : ℚ) : WithTop ℚ) : WithBot (WithTop ℚ)) ((y : ℚ) : WithTop ℚ) = cmp x y := by
  rw [WithBot.coe_strictMono.cmp_map_eq, WithTop.coe_strictMono.cmp_map_eq]

/-- The native comparison of canonical data compares the numbers they stand for. -/
theorem compare_eq_cmp {a b : UnpackedFloat} {x y : WithBot (WithTop ℚ)} (ha : Canonical S a)
    (hb : Canonical S b) (hx : exact a = some x) (hy : exact b = some y) :
    a.compare b = some (cmp x y) := by
  have hpos : ∀ (m : ℕ) (e : ℤ), 0 < m → (0 : ℚ) < m * 2 ^ e := fun m e h => by positivity
  have hlt : ∀ {u v : WithBot (WithTop ℚ)}, u < v → Ordering.lt = cmp u v := fun h =>
    ((cmp_eq_lt_iff _ _).mpr h).symm
  have hgt : ∀ {u v : WithBot (WithTop ℚ)}, v < u → Ordering.gt = cmp u v := fun h =>
    ((cmp_eq_gt_iff _ _).mpr h).symm
  have hbot : ∀ q : ℚ, (⊥ : WithBot (WithTop ℚ)) < ((q : WithTop ℚ) : WithBot (WithTop ℚ)) :=
    fun q => WithBot.bot_lt_coe _
  have htop : ∀ q : ℚ, ((q : WithTop ℚ) : WithBot (WithTop ℚ)) < (⊤ : WithBot (WithTop ℚ)) :=
    fun q => WithBot.coe_lt_coe.mpr (WithTop.coe_lt_top q)
  have hcoe : ∀ {p q : ℚ}, p < q →
      ((p : WithTop ℚ) : WithBot (WithTop ℚ)) < ((q : WithTop ℚ) : WithBot (WithTop ℚ)) :=
    fun h => WithBot.coe_lt_coe.mpr (WithTop.coe_lt_coe.mpr h)
  rcases a with (_ | _) | _ | _ | ⟨_ | _, m, e, hm⟩ <;>
    rcases b with (_ | _) | _ | _ | ⟨_ | _, n, f, hn⟩ <;>
    simp only [exact, Option.some.injEq, reduceCtorEq, Sign.apply, Int.cast_neg, Int.cast_natCast,
      neg_mul] at hx hy <;>
    subst hx hy <;> apply congrArg some
  -- both infinite, then one of them, then zeros and numbers
  · exact (cmp_self_eq_eq _).symm
  · exact hlt bot_lt_top
  · exact hlt (hbot _)
  · exact hlt (hbot _)
  · exact hlt (hbot _)
  · exact hgt bot_lt_top
  · exact (cmp_self_eq_eq _).symm
  · exact hgt (htop _)
  · exact hgt (htop _)
  · exact hgt (htop _)
  · exact hgt (hbot _)
  · exact hlt (htop _)
  · exact (cmp_self_eq_eq _).symm
  · exact hgt (hcoe (neg_lt_zero.mpr (hpos n f hn)))
  · exact hlt (hcoe (hpos n f hn))
  · exact hgt (hbot _)
  · exact hlt (htop _)
  · exact hlt (hcoe (neg_lt_zero.mpr (hpos m e hm)))
  · rw [cmp_coe, cmp_neg_neg, ← compare_magnitude ha hb]
  · exact hlt (hcoe ((neg_lt_zero.mpr (hpos m e hm)).trans (hpos n f hn)))
  · exact hgt (hbot _)
  · exact hlt (htop _)
  · exact hgt (hcoe (hpos m e hm))
  · exact hgt (hcoe ((neg_lt_zero.mpr (hpos n f hn)).trans (hpos m e hm)))
  · rw [cmp_coe, ← compare_magnitude ha hb]

end Order

section Values

/-- The exact value of a float; a NaN has none. -/
def value (f : Float) : Option (WithBot (WithTop ℚ)) := exact f.toModel.unpack

def posZero : Float := Float.ofBits 0

def negZero : Float := Float.ofBits 0x8000000000000000

theorem toBits_injective {f g : Float} (h : f.toBits = g.toBits) : f = g := by
  obtain ⟨⟨b, hb⟩⟩ := f
  obtain ⟨⟨c, hc⟩⟩ := g
  cases (h : b = c)
  rfl

theorem float_unpack_injective {f g : Float} (h : f.toModel.unpack = g.toModel.unpack)
    (hf : f.toModel.unpack ≠ .notANumber) : f = g := by
  apply toBits_injective
  have hbits : f.toModel.toBits.toBitVec = g.toModel.toBits.toBitVec := unpack_injective h hf
  exact UInt64.toBitVec_inj.mp hbits

theorem exact_eq_none_iff {a : UnpackedFloat} : exact a = none ↔ a = .notANumber := by
  rcases a with (_ | _) | _ | _ | _ <;> simp [exact]

/-- A float that is neither NaN nor infinite is a rational number. -/
theorem finite_iff (f : Float) : (f.isNaN || f.isInf) = false ↔
    ∃ q : ℚ, value f = some ((q : WithTop ℚ) : WithBot (WithTop ℚ)) := by
  unfold Float.isNaN Float.Model.isNaN Float.isInf Float.Model.isInf value
  rcases f.toModel.unpack with (_ | _) | _ | _ | _ <;>
    simp only [Float.Model.UnpackedFloat.isNaN, Float.Model.UnpackedFloat.isInf, exact,
      Option.some.injEq]
  · simp
  · simp
  · simp
  · exact ⟨fun _ => ⟨0, rfl⟩, fun _ => rfl⟩
  · exact ⟨fun _ => ⟨_, rfl⟩, fun _ => rfl⟩

theorem compare_eq {f g : Float} {x y : WithBot (WithTop ℚ)} (hx : value f = some x)
    (hy : value g = some y) : f.toModel.unpack.compare g.toModel.unpack = some (cmp x y) :=
  compare_eq_cmp (canonical_unpack _) (canonical_unpack _) hx hy

theorem lt_iff_compare (f g : Float) :
    f < g ↔ f.toModel.unpack.compare g.toModel.unpack = some .lt := by
  change Float.lt f g = true ↔ _
  unfold Float.lt
  rw [decide_eq_true_iff]
  exact beq_iff_eq

theorem beq_iff_compare (f g : Float) :
    (f == g) = true ↔ f.toModel.unpack.compare g.toModel.unpack = some .eq := by
  change (f.toModel.unpack.compare g.toModel.unpack == some .eq) = true ↔ _
  exact beq_iff_eq

/-- Floats compare as the numbers they stand for. -/
theorem lt_iff {f g : Float} {x y : WithBot (WithTop ℚ)} (hx : value f = some x)
    (hy : value g = some y) : f < g ↔ x < y := by
  rw [lt_iff_compare, compare_eq hx hy, Option.some.injEq, cmp_eq_lt_iff]

theorem not_lt_of_isNaN {f g : Float} (h : value f = none ∨ value g = none) : ¬ f < g := by
  rw [lt_iff_compare]
  rcases h with h | h
  · rw [exact_eq_none_iff.mp h]
    cases g.toModel.unpack <;> simp [UnpackedFloat.compare]
  · rw [exact_eq_none_iff.mp h]
    cases f.toModel.unpack <;> simp [UnpackedFloat.compare]

/-- The floats that compare equal without being the same float: the two zeros. -/
inductive OppositeZeros : Float → Float → Prop
  | posNeg : OppositeZeros posZero negZero
  | negPos : OppositeZeros negZero posZero

theorem unpack_posZero : posZero.toModel.unpack = .zero .positive := rfl

theorem unpack_negZero : negZero.toModel.unpack = .zero .negative := rfl

/-- Unpacked data that compare equal are equal, or zeros. -/
theorem eq_or_zero_of_compare {a b : UnpackedFloat} (h : a.compare b = some .eq) :
    (a = b ∧ a ≠ .notANumber) ∨ ∃ s t, a = .zero s ∧ b = .zero t := by
  rcases a with (_ | _) | _ | s | ⟨_ | _, m, e, hm⟩ <;>
    rcases b with (_ | _) | _ | t | ⟨_ | _, n, f, hn⟩ <;>
    simp only [UnpackedFloat.compare, Option.some.injEq, reduceCtorEq] at h
  · exact Or.inl ⟨rfl, nofun⟩
  · exact Or.inl ⟨rfl, nofun⟩
  · exact Or.inr ⟨s, t, rfl, rfl⟩
  · rw [Ordering.swap_eq_eq, Ordering.then_eq_eq, Int.compare_eq_eq, Nat.compare_eq_eq] at h
    obtain ⟨rfl, rfl⟩ := h
    exact Or.inl ⟨rfl, nofun⟩
  · rw [Ordering.then_eq_eq, Int.compare_eq_eq, Nat.compare_eq_eq] at h
    obtain ⟨rfl, rfl⟩ := h
    exact Or.inl ⟨rfl, nofun⟩

theorem eq_zero_of_unpack {f : Float} {s : Sign} (h : f.toModel.unpack = .zero s) :
    f = posZero ∧ s = .positive ∨ f = negZero ∧ s = .negative := by
  cases s with
  | negative =>
    exact Or.inr ⟨float_unpack_injective (h.trans unpack_negZero.symm) (by rw [h]; nofun), rfl⟩
  | positive =>
    exact Or.inl ⟨float_unpack_injective (h.trans unpack_posZero.symm) (by rw [h]; nofun), rfl⟩

/-- Floats that compare equal are the same float, or zeros of opposite signs. -/
theorem eq_or_oppositeZeros {f g : Float} (h : f == g) : f = g ∨ OppositeZeros f g := by
  rcases eq_or_zero_of_compare ((beq_iff_compare f g).mp h) with ⟨heq, hf⟩ | ⟨s, t, hf, hg⟩
  · exact Or.inl (float_unpack_injective heq hf)
  · rcases eq_zero_of_unpack hf with ⟨rfl, -⟩ | ⟨rfl, -⟩ <;>
      rcases eq_zero_of_unpack hg with ⟨rfl, -⟩ | ⟨rfl, -⟩
    · exact Or.inl rfl
    · exact Or.inr .posNeg
    · exact Or.inr .negPos
    · exact Or.inl rfl

theorem OppositeZeros.symm {f g : Float} (h : OppositeZeros f g) : OppositeZeros g f := by
  cases h with
  | posNeg => exact .negPos
  | negPos => exact .posNeg

/-- Equal as numbers, different as bit patterns. -/
theorem OppositeZeros.toBits_ne {f g : Float} (h : OppositeZeros f g) : f.toBits ≠ g.toBits := by
  cases h with
  | posNeg => decide
  | negPos => decide

theorem beq_comm (f g : Float) : (f == g) = (g == f) := by
  have h : ∀ {f g : Float}, f == g → g == f := by
    intro f g h
    rcases eq_or_oppositeZeros h with rfl | h
    · exact h
    · cases h <;> rfl
  exact Bool.eq_iff_iff.mpr ⟨h, h⟩

end Values

end PJS.FloatOrder
