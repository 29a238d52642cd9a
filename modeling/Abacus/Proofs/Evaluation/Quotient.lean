import Mathlib.Algebra.Order.Group.Unbundled.Int
import Mathlib.Algebra.Order.Ring.Abs
import Mathlib.Tactic.LinearCombination
import Abacus.Evaluation.Climb

/-! # Quotients of integers

The quotient of the absolute values, with a minus where the signs differ, is the
quotient truncated toward zero. Only a divisor of zero leaves none, and of all
other pairs of 32-bit integers only one has a quotient that does not fit: the
least integer divided by minus one wraps to the least integer again.
-/

namespace Abacus.Evaluation

/-- What remains is smaller than the divisor, and it is zero or has the sign of the dividend. -/
def IsTruncated (a b q : Int) : Prop :=
  ∃ r, a = q * b + r ∧ |r| < |b| ∧ (r = 0 ∨ r.sign = a.sign)

variable {a b q q' r : Int}

theorem nonneg_of_sign (h : r = 0 ∨ r.sign = a.sign) (ha : 0 ≤ a) : 0 ≤ r := by
  rcases h with rfl | h
  · exact le_rfl
  · exact Int.sign_nonneg_iff.mp (h ▸ Int.sign_nonneg_iff.mpr ha)

theorem nonpos_of_sign (h : r = 0 ∨ r.sign = a.sign) (ha : a ≤ 0) : r ≤ 0 := by
  rcases h with rfl | h
  · exact le_rfl
  · exact Int.sign_nonpos_iff.mp (h ▸ Int.sign_nonpos_iff.mpr ha)

theorem quotient_mul (a b : Int) : quotient a b * b =
    if a < 0 then -((a.natAbs / b.natAbs : Nat) * |b|) else (a.natAbs / b.natAbs : Nat) * |b| := by
  unfold quotient
  rcases lt_or_ge a 0 with ha | ha <;> rcases lt_or_ge b 0 with hb | hb
  · rw [if_pos (iff_of_true ha hb), if_pos ha, abs_of_neg hb, mul_neg, neg_neg]
  · rw [if_neg fun h => hb.not_gt (h.mp ha), if_pos ha, abs_of_nonneg hb, neg_mul]
  · rw [if_neg fun h => ha.not_gt (h.mpr hb), if_neg ha.not_gt, abs_of_neg hb, neg_mul_comm]
  · rw [if_pos (iff_of_false ha.not_gt hb.not_gt), if_neg ha.not_gt, abs_of_nonneg hb]

theorem isTruncated_quotient (a : Int) (hb : b ≠ 0) : IsTruncated a b (quotient a b) := by
  have hlt : ((a.natAbs % b.natAbs : Nat) : Int) < |b| := by
    rw [Int.abs_eq_natAbs]
    exact_mod_cast Nat.mod_lt _ (Int.natAbs_pos.mpr hb)
  have hnonneg : 0 ≤ ((a.natAbs % b.natAbs : Nat) : Int) := Int.natCast_nonneg _
  have habs : ((a.natAbs / b.natAbs : Nat) : Int) * |b| + (a.natAbs % b.natAbs : Nat) = |a| := by
    rw [Int.abs_eq_natAbs, Int.abs_eq_natAbs]
    exact_mod_cast Nat.div_add_mod' a.natAbs b.natAbs
  rcases lt_or_ge a 0 with ha | ha
  · refine ⟨-(a.natAbs % b.natAbs : Nat), ?_, ?_, ?_⟩
    · rw [quotient_mul, if_pos ha]
      rw [abs_of_neg ha] at habs
      linear_combination habs
    · rwa [abs_neg, abs_of_nonneg hnonneg]
    · rcases hnonneg.eq_or_lt with hzero | hpos
      · exact Or.inl (neg_eq_zero.mpr hzero.symm)
      · rw [Int.sign_eq_neg_one_of_neg ha, Int.sign_eq_neg_one_of_neg (neg_lt_zero.mpr hpos)]
        exact Or.inr rfl
  · refine ⟨(a.natAbs % b.natAbs : Nat), ?_, ?_, ?_⟩
    · rw [quotient_mul, if_neg ha.not_gt]
      rw [abs_of_nonneg ha] at habs
      exact habs.symm
    · rwa [abs_of_nonneg hnonneg]
    · rcases hnonneg.eq_or_lt with hzero | hpos
      · exact Or.inl hzero.symm
      · have hmod : a.natAbs % b.natAbs ≤ a.natAbs := Nat.mod_le _ _
        have ha : 0 < a := by omega
        rw [Int.sign_eq_one_of_pos ha, Int.sign_eq_one_of_pos hpos]
        exact Or.inr rfl

theorem IsTruncated.unique (hb : b ≠ 0) (h : IsTruncated a b q) (h' : IsTruncated a b q') :
    q = q' := by
  obtain ⟨r, ha, hr, hsign⟩ := h
  obtain ⟨r', ha', hr', hsign'⟩ := h'
  have hnear : |r' - r| < |b| := by
    rw [abs_lt] at hr hr' ⊢
    rcases le_total 0 a with h | h
    · have := nonneg_of_sign hsign h
      have := nonneg_of_sign hsign' h
      omega
    · have := nonpos_of_sign hsign h
      have := nonpos_of_sign hsign' h
      omega
  have hdvd : |b| ∣ r' - r := (abs_dvd _ _).mpr ⟨q - q', by linear_combination ha - ha'⟩
  have hsame : r' - r = 0 := Int.eq_zero_of_abs_lt_dvd hdvd hnear
  exact mul_right_cancel₀ hb (by linear_combination hsame - ha + ha')

theorem isTruncated_iff (hb : b ≠ 0) : IsTruncated a b q ↔ q = quotient a b :=
  ⟨fun h => h.unique hb (isTruncated_quotient a hb), fun h => h ▸ isTruncated_quotient a hb⟩

theorem natAbs_quotient (a b : Int) : (quotient a b).natAbs = a.natAbs / b.natAbs := by
  unfold quotient
  split
  · exact Int.natAbs_natCast _
  · exact (Int.natAbs_neg _).trans (Int.natAbs_natCast _)

/-- Only the least integer by minus one has a quotient that wrapping has to bring back. -/
theorem wrap_quotient (a b : Int32) (hfits : ¬ (a.toInt = -2 ^ 31 ∧ b.toInt = -1)) :
    wrap (quotient a.toInt b.toInt) = quotient a.toInt b.toInt := by
  have hmin : -2 ^ 31 ≤ a.toInt := a.minValue_le_toInt
  have hmax : a.toInt ≤ 2 ^ 31 - 1 := a.toInt_le
  generalize a.toInt = a at *
  generalize b.toInt = b at *
  have habs := natAbs_quotient a b
  have hle : a.natAbs / b.natAbs ≤ a.natAbs := Nat.div_le_self _ _
  have hfit : quotient a b ≤ 2 ^ 31 - 1 := by
    by_contra hover
    have hone : b.natAbs = 1 := by
      by_contra hne
      have hhalf : a.natAbs / b.natAbs ≤ a.natAbs / 2 := by
        rcases Nat.eq_zero_or_pos b.natAbs with hzero | hpos
        · rw [hzero, Nat.div_zero]
          exact Nat.zero_le _
        · exact Nat.div_le_div_left (by omega) two_pos
      omega
    rw [hone, Nat.div_one] at habs
    obtain rfl : a = -2 ^ 31 := by omega
    rcases Int.natAbs_eq_iff.mp hone with rfl | rfl
    · exact hover (by decide)
    · exact hfits ⟨rfl, rfl⟩
  exact wrap_of_mem_range (show -2 ^ 31 ≤ quotient a b by omega) hfit

/--
Only a divisor of zero leaves no quotient. Otherwise the quotient is the truncated one, where that
fits: the least integer divided by minus one wraps to itself.
-/
theorem apply_divide_integer (a b : Int32) :
    (∀ f, apply .divide (.integer a) (.integer b) = .error f ↔ b = 0 ∧ f = .divisionByZero) ∧
    (b ≠ 0 → ∃ q : Int32, apply .divide (.integer a) (.integer b) = .ok (.integer q) ∧
      -2 ^ 31 ≤ q.toInt ∧ q.toInt ≤ 2 ^ 31 - 1 ∧
      (¬ (a.toInt = -2 ^ 31 ∧ b.toInt = -1) →
        ∀ k, k = q.toInt ↔ IsTruncated a.toInt b.toInt k) ∧
      (a.toInt = -2 ^ 31 → b.toInt = -1 → q.toInt = -2 ^ 31)) := by
  have hzero : b.toInt = 0 ↔ b = 0 := Int32.toInt_inj (y := 0)
  have happly : apply .divide (.integer a) (.integer b) =
      if b.toInt = 0 then .error .divisionByZero
      else .ok (.integer (wrapped (quotient a.toInt b.toInt))) := by
    simp only [apply, Operator.combine?, Operator.onIntegers?, Operator.unbounded?]
    split_ifs <;> rfl
  simp only [hzero] at happly
  refine ⟨fun f => ?_, fun hb => ?_⟩
  · rw [happly]
    split_ifs with hb <;> simp [hb, eq_comm]
  rw [if_neg hb] at happly
  have hb : b.toInt ≠ 0 := mt hzero.mp hb
  refine ⟨_, happly, ?_, ?_, ?_, ?_⟩
  · rw [toInt_wrapped]
    exact minValue_le_wrap _
  · rw [toInt_wrapped]
    exact wrap_le_maxValue _
  · intro hfits k
    rw [toInt_wrapped, wrap_quotient a b hfits, isTruncated_iff hb]
  · intro ha hone
    rw [toInt_wrapped, ha, hone]
    decide

theorem apply_divide_integer_least :
    apply .divide (.integer (-2147483647)) (.integer (-2)) = .ok (.integer 1073741823) ∧
      IsTruncated (-2147483647) (-2) 1073741823 ∧
      apply .divide (.integer (-2147483648)) (.integer (-1)) = .ok (.integer (-2147483648)) := by
  have hcut : apply .divide (.integer (-2147483647)) (.integer (-2)) = .ok (.integer 1073741823) :=
    rfl
  obtain ⟨q, hq, -, -, htruncated, -⟩ := (apply_divide_integer (-2147483647) (-2)).2 (by decide)
  cases hcut.symm.trans hq
  obtain ⟨q', hq', -, -, -, hwraps⟩ := (apply_divide_integer (-2147483648) (-1)).2 (by decide)
  obtain rfl : q' = -2147483648 := Int32.toInt_inj.mp (hwraps rfl rfl)
  exact ⟨hcut, (htruncated (by decide) _).mp rfl, hq'⟩

end Abacus.Evaluation
