import Mathlib.Algebra.Order.Field.Basic
import Mathlib.Data.Int.Log
import Mathlib.Data.Rat.Floor
import Mathlib.Tactic.FieldSimp
import Mathlib.Tactic.Linarith
import Mathlib.Tactic.Positivity
import Mathlib.Tactic.Ring
import Abacus.Number.Binary

/-! # Rounding to nearest

How far the rounding of a rational lies from it, and which rationals are rounded
to a given number: the nearest integer first, then the nearest number of a binary
format.
-/

namespace Abacus

variable {x : Rat}

theorem abs_nearestEven_sub_le (x : Rat) : |(nearestEven x : Rat) - x| ≤ 1 / 2 := by
  have hle : (x.floor : Rat) ≤ x := Rat.floor_le x
  have hlt : x - 1 < x.floor := Rat.lt_floor
  rw [abs_le]
  simp only [nearestEven]
  split_ifs
  · constructor <;> linarith
  · push_cast
    constructor <;> linarith
  · constructor <;> linarith
  · push_cast
    constructor <;> linarith

theorem nearestEven_eq_of_abs_sub_lt {n : Int} (h : |x - n| < 1 / 2) : nearestEven x = n := by
  have hx : |(nearestEven x : Rat) - x| ≤ 1 / 2 := abs_nearestEven_sub_le x
  have hlt : |((nearestEven x - n : Int) : Rat)| < 1 := by
    calc |((nearestEven x - n : Int) : Rat)| = |((nearestEven x : Rat) - x) + (x - n)| := by
          push_cast
          ring_nf
      _ ≤ |(nearestEven x : Rat) - x| + |x - n| := abs_add_le _ _
      _ < 1 := by linarith
  have hzero : nearestEven x - n = 0 := Int.abs_lt_one_iff.mp (by exact_mod_cast hlt)
  omega

theorem le_nearestEven {n : Int} (h : (n : Rat) ≤ x) : n ≤ nearestEven x := by
  have hx := (abs_le.mp (abs_nearestEven_sub_le x)).1
  have hlt : (n : Rat) < (nearestEven x + 1 : Int) := by
    push_cast
    linarith
  have hlt : n < nearestEven x + 1 := by exact_mod_cast hlt
  omega

theorem nearestEven_le {n : Int} (h : x ≤ n) : nearestEven x ≤ n := by
  have hx := (abs_le.mp (abs_nearestEven_sub_le x)).2
  have hlt : (nearestEven x : Rat) < (n + 1 : Int) := by
    push_cast
    linarith
  have hlt : nearestEven x < n + 1 := by exact_mod_cast hlt
  omega

theorem log_eq_of_bounds {base : Nat} {e : Int} (hbase : 1 < base) (hx : 0 < x)
    (hle : (base : Rat) ^ e ≤ x) (hlt : x < (base : Rat) ^ (e + 1)) : Int.log base x = e := by
  have hle : e ≤ Int.log base x := (Int.zpow_le_iff_le_log hbase hx).mp hle
  have hlt : Int.log base x < e + 1 := (Int.lt_zpow_iff_log_lt hbase hx).mp hlt
  omega

theorem bounds_of_mul_eq {base n d : Rat} {i j : Int} (hbase : 0 < base) (hd : 0 < d)
    (hx : x * d = n) (hile : base ^ i ≤ n) (hilt : n < base ^ (i + 1)) (hjle : base ^ j ≤ d)
    (hjlt : d < base ^ (j + 1)) : base ^ (i - j - 1) ≤ x ∧ x < base ^ (i - j + 1) := by
  have hpow (e : Int) : 0 < base ^ e := zpow_pos hbase e
  constructor
  · refine le_of_mul_le_mul_right ?_ hd
    calc base ^ (i - j - 1) * d ≤ base ^ (i - j - 1) * base ^ (j + 1) :=
          mul_le_mul_of_nonneg_left hjlt.le (hpow _).le
      _ = base ^ i := by
          rw [← zpow_add₀ hbase.ne']
          congr 1
          omega
      _ ≤ x * d := hile.trans hx.ge
  · refine lt_of_mul_lt_mul_right ?_ hd.le
    calc x * d < base ^ (i + 1) := hx.trans_lt hilt
      _ = base ^ (i - j + 1) * base ^ j := by
          rw [← zpow_add₀ hbase.ne']
          congr 1
          omega
      _ ≤ base ^ (i - j + 1) * d := mul_le_mul_of_nonneg_left hjle (hpow _).le

theorem leadingExponent_eq_log {base : Nat} {digitCount : Nat → Nat} (hbase : 1 < base)
    (hcount : ∀ n, n ≠ 0 → ∃ k, digitCount n = k + 1 ∧ base ^ k ≤ n ∧ n < base ^ (k + 1))
    (hx : 0 < x) : leadingExponent base digitCount x = Int.log base x := by
  have hnum : x.num.natAbs ≠ 0 := by simpa using hx.ne'
  obtain ⟨i, hi, hile, hilt⟩ := hcount _ hnum
  obtain ⟨j, hj, hjle, hjlt⟩ := hcount _ x.den_nz
  have hb : (0 : Rat) < base := by exact_mod_cast Nat.zero_lt_of_lt hbase
  have hden : (0 : Rat) < x.den := by exact_mod_cast x.den_pos
  have hfraction : x * x.den = x.num.natAbs := by
    rw [Rat.mul_den_eq_num, ← Int.cast_natCast, Int.natAbs_of_nonneg (Rat.num_nonneg.mpr hx.le)]
  have hile : (base : Rat) ^ (i : Int) ≤ x.num.natAbs := by exact_mod_cast hile
  have hilt : (x.num.natAbs : Rat) < (base : Rat) ^ (i + 1 : Int) := by exact_mod_cast hilt
  have hjle : (base : Rat) ^ (j : Int) ≤ x.den := by exact_mod_cast hjle
  have hjlt : (x.den : Rat) < (base : Rat) ^ (j + 1 : Int) := by exact_mod_cast hjlt
  obtain ⟨hlow, hhigh⟩ := bounds_of_mul_eq hb hden hfraction hile hilt hjle hjlt
  have he : ((digitCount x.num.natAbs : Int) - digitCount x.den) = i - j := by omega
  simp only [leadingExponent, he]
  split_ifs with h
  · exact (log_eq_of_bounds hbase hx hlow (by rwa [sub_add_cancel])).symm
  · exact (log_eq_of_bounds hbase hx (not_lt.mp h) hhigh).symm

theorem binaryExponent_eq_log (hx : 0 < x) : binaryExponent x = Int.log 2 x :=
  leadingExponent_eq_log (by decide)
    (fun n hn => ⟨n.log2, rfl, Nat.log2_self_le hn, Nat.lt_log2_self⟩) hx

theorem lt_length_toDigits_iff {n k : Nat} (hn : n ≠ 0) :
    k < (Nat.toDigits 10 n).length ↔ 10 ^ k ≤ n := by
  rcases Nat.eq_zero_or_pos k with rfl | hk
  · exact iff_of_true Nat.length_toDigits_pos (Nat.one_le_iff_ne_zero.mpr hn)
  · rw [← not_le, Nat.length_toDigits_le_iff (by decide) hk, not_lt]

theorem decimalExponent_eq_log (hx : 0 < x) : decimalExponent x = Int.log 10 x := by
  refine leadingExponent_eq_log (by decide) (fun n hn => ?_) hx
  obtain ⟨k, hk⟩ := Nat.exists_eq_add_one.mpr (Nat.length_toDigits_pos (b := 10) (n := n))
  exact ⟨k, hk, (lt_length_toDigits_iff hn).mp (by omega),
    (Nat.length_toDigits_le_iff (by decide) (by omega)).mp hk.le⟩

namespace Format

variable {f : Format}

theorem bound_eq_two_pow (f : Format) : f.bound = 2 ^ f.precision := by
  rw [bound, Nat.one_shiftLeft]

theorem bound_eq_two_mul (f : Format) : f.bound = 2 * 2 ^ (f.precision - 1) := by
  rw [bound_eq_two_pow, ← Nat.pow_succ', Nat.succ_eq_add_one, Nat.sub_add_cancel f.precision_pos]

/-- The place of the last bit of the significand that a magnitude is rounded to. -/
def place (f : Format) (a : Rat) : Int :=
  max (binaryExponent a - (f.precision - 1)) f.least

end Format

namespace Binary

variable {f : Format} {a : Rat} {m : Nat} {e : Int}

theorem ofParts_of_canonical (negative : Bool) (h : f.Canonical m e) :
    ofParts negative m e = .finite negative m e h :=
  dif_pos h

theorem roundMagnitude_eq (negative : Bool) (hplace : f.place a = e)
    (hm : nearestEven (a / (2 : Rat) ^ e) = m) : roundMagnitude (f := f) negative a =
      if m = f.bound then ofParts negative (m / 2) (e + 1) else ofParts negative m e := by
  subst hplace
  have hm : (nearestEven (a / (2 : Rat) ^ f.place a)).toNat = m := by rw [hm, Int.toNat_natCast]
  rw [← hm]
  rfl

theorem roundMagnitude_eq_finite (negative : Bool) (h : f.Canonical m e) (hplace : f.place a = e)
    (hm : nearestEven (a / (2 : Rat) ^ e) = m) :
    roundMagnitude negative a = .finite negative m e h := by
  rw [roundMagnitude_eq negative hplace hm, if_neg h.1.ne, ofParts_of_canonical]

theorem roundMagnitude_eq_finite_succ (negative : Bool) (h : f.Canonical m (e + 1))
    (hbound : f.bound = 2 * m) (hplace : f.place a = e)
    (hm : nearestEven (a / (2 : Rat) ^ e) = f.bound) :
    roundMagnitude negative a = .finite negative m (e + 1) h := by
  have hhalf : f.bound / 2 = m := by omega
  rw [roundMagnitude_eq negative hplace hm, if_pos rfl, hhalf, ofParts_of_canonical]

theorem two_zpow_pos (e : Int) : (0 : Rat) < (2 : Rat) ^ e :=
  zpow_pos two_pos e

theorem bound_mul_two_zpow (f : Format) (e : Int) :
    (f.bound : Rat) * (2 : Rat) ^ e = (2 : Rat) ^ (f.precision + e) := by
  rw [f.bound_eq_two_pow, zpow_add₀ two_ne_zero]
  push_cast
  rfl

theorem round_zero (zeroSign : Bool) : round (f := f) zeroSign 0 = zero zeroSign :=
  if_pos rfl

theorem round_signed (zeroSign negative : Bool) (ha : 0 < a) :
    round (f := f) zeroSign (if negative then -a else a) = roundMagnitude negative a := by
  cases negative with
  | false =>
    rw [if_neg Bool.false_ne_true, round, if_neg ha.ne', if_neg ha.not_gt]
  | true =>
    rw [if_pos rfl, round, if_neg (neg_ne_zero.mpr ha.ne'), if_pos (neg_lt_zero.mpr ha), neg_neg]

theorem round_eq_roundMagnitude (zeroSign : Bool) (hx : x ≠ 0) :
    round (f := f) zeroSign x = roundMagnitude (decide (x < 0)) |x| := by
  rw [round, if_neg hx]
  split_ifs with hneg
  · rw [decide_eq_true hneg, abs_of_neg hneg]
  · rw [decide_eq_false hneg, abs_of_nonneg (not_lt.mp hneg)]

theorem place_eq (ha : 0 < a) (hleast : f.least ≤ e) (hhigh : a < f.bound * (2 : Rat) ^ e)
    (hlow : e = f.least ∨ f.bound * (2 : Rat) ^ e ≤ 2 * a) : f.place a = e := by
  rw [bound_mul_two_zpow] at hhigh hlow
  have hlt : Int.log 2 a < f.precision + e := (Int.lt_zpow_iff_log_lt (by decide) ha).mp hhigh
  rw [Format.place, binaryExponent_eq_log ha]
  rcases hlow with rfl | hlow
  · omega
  · have hle : (2 : Rat) ^ (f.precision + e - 1 : Int) ≤ a := by
      rw [zpow_sub_one₀ two_ne_zero]
      linarith
    have hle : f.precision + e - 1 ≤ Int.log 2 a :=
      (Int.zpow_le_iff_le_log (by decide) ha).mp hle
    omega

theorem two_zpow_least_le (h : f.Canonical m e) (hm : 0 < m) :
    (2 : Rat) ^ f.least ≤ m * (2 : Rat) ^ e :=
  calc (2 : Rat) ^ f.least ≤ (2 : Rat) ^ e := zpow_le_zpow_right₀ one_le_two h.2.1
    _ ≤ m * (2 : Rat) ^ e := le_mul_of_one_le_left (two_zpow_pos e).le (by exact_mod_cast hm)

theorem natCast_mul_lt (hm : m < f.bound) (e : Int) :
    m * (2 : Rat) ^ e < (2 : Rat) ^ (f.precision + e) := by
  rw [← bound_mul_two_zpow]
  exact mul_lt_mul_of_pos_right (by exact_mod_cast hm) (two_zpow_pos e)

theorem lt_two_zpow (h : f.Canonical m e) :
    m * (2 : Rat) ^ e < (2 : Rat) ^ (f.precision + f.greatest) :=
  (natCast_mul_lt h.1 e).trans_le
    (zpow_le_zpow_right₀ one_le_two (Int.add_le_add_left h.2.2.1 _))

theorem abs_div_two_zpow_sub (x y : Rat) (e : Int) :
    |x / (2 : Rat) ^ e - y| = |x - y * (2 : Rat) ^ e| / (2 : Rat) ^ e := by
  have hpow : (0 : Rat) < (2 : Rat) ^ e := two_zpow_pos e
  rw [← abs_of_pos hpow, ← abs_div, abs_of_pos hpow, sub_div, mul_div_cancel_right₀ _ hpow.ne']

theorem abs_div_sub_lt {c : Rat} {n : Nat} (h : |a - n * (2 : Rat) ^ e| < c * (2 : Rat) ^ e) :
    |a / (2 : Rat) ^ e - (n : Int)| < c := by
  rw [abs_div_two_zpow_sub, div_lt_iff₀ (two_zpow_pos e)]
  exact h

theorem roundMagnitude_eq_of_near_below (negative : Bool) (h : f.Canonical m (e + 1))
    (hfull : f.bound = 2 * m) (ha : 0 < a) (hleast : f.least ≤ e)
    (hbelow : 2 * a < f.bound * (2 : Rat) ^ (e + 1))
    (hnear : |a - m * (2 : Rat) ^ (e + 1)| < 1 / 4 * (2 : Rat) ^ (e + 1)) :
    roundMagnitude negative a = .finite negative m (e + 1) h := by
  have hpow : (0 : Rat) < (2 : Rat) ^ e := two_zpow_pos e
  have hsucc : (2 : Rat) ^ (e + 1) = 2 * (2 : Rat) ^ e := by
    rw [zpow_add_one₀ two_ne_zero, mul_comm]
  have hcast : (f.bound : Rat) = 2 * m := by exact_mod_cast hfull
  have hone : (1 : Rat) * (2 : Rat) ^ e ≤ m * (2 : Rat) ^ e := by
    have hm : 0 < m := by
      have := f.bound_pos
      omega
    exact mul_le_mul_of_nonneg_right (by exact_mod_cast hm) hpow.le
  rw [hsucc] at hnear hbelow
  obtain ⟨hlow, -⟩ := abs_lt.mp hnear
  have hplace : f.place a = e := by
    refine place_eq ha hleast (by linarith) (Or.inr ?_)
    rw [hcast]
    linarith
  have hnearest : nearestEven (a / (2 : Rat) ^ e) = f.bound := by
    refine nearestEven_eq_of_abs_sub_lt (abs_div_sub_lt ?_)
    have heq : a - f.bound * (2 : Rat) ^ e = a - m * (2 * (2 : Rat) ^ e) := by
      rw [hcast]
      ring
    rw [heq]
    linarith
  exact roundMagnitude_eq_finite_succ negative h hfull hplace hnearest

/-- What lies within a quarter of the last place of a number is rounded to it. -/
theorem roundMagnitude_eq_of_near (negative : Bool) (h : f.Canonical m e) (hm : 0 < m)
    (hnear : |a - m * (2 : Rat) ^ e| < 1 / 4 * (2 : Rat) ^ e) :
    roundMagnitude negative a = .finite negative m e h := by
  have hpow : (0 : Rat) < (2 : Rat) ^ e := two_zpow_pos e
  obtain ⟨hlow, hhigh⟩ := abs_lt.mp hnear
  have hone : (1 : Rat) * (2 : Rat) ^ e ≤ m * (2 : Rat) ^ e :=
    mul_le_mul_of_nonneg_right (by exact_mod_cast hm) hpow.le
  have ha : 0 < a := by linarith
  have hbound : ((m : Rat) + 1) * (2 : Rat) ^ e ≤ f.bound * (2 : Rat) ^ e :=
    mul_le_mul_of_nonneg_right (by exact_mod_cast h.1) hpow.le
  by_cases hplace : e = f.least ∨ f.bound * (2 : Rat) ^ e ≤ 2 * a
  · have hplace : f.place a = e := place_eq ha h.2.1 (by linarith) hplace
    have hnearest : nearestEven (a / (2 : Rat) ^ e) = m :=
      nearestEven_eq_of_abs_sub_lt ((abs_div_sub_lt hnear).trans (by norm_num))
    exact roundMagnitude_eq_finite negative h hplace hnearest
  · obtain ⟨hleast, hbelow⟩ := not_or.mp hplace
    have hbelow := not_le.mp hbelow
    have hfull : f.bound = 2 * m := by
      have hle : f.bound ≤ 2 * m := h.2.2.2.resolve_left hleast
      have hge : (2 * m : Rat) < (f.bound + 1 : Nat) := by
        refine lt_of_mul_lt_mul_right ?_ hpow.le
        push_cast
        linarith
      have hge : 2 * m < f.bound + 1 := by exact_mod_cast hge
      omega
    obtain ⟨d, rfl⟩ : ∃ d, e = d + 1 := ⟨e - 1, by omega⟩
    have hd : f.least ≤ d := by
      have := h.2.1
      omega
    exact roundMagnitude_eq_of_near_below negative h hfull ha hd hbelow hnear

end Binary

end Abacus
