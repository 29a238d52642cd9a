import Abacus.Number.Single
import Abacus.Proofs.Number.Nearest

/-! # Digits that read back

A decimal close to a single precision number reads as it, although it is rounded
twice on the way. Nine significant digits are always close enough, so the digits
that a number is written with read back as the number.
-/

namespace Abacus

namespace Decimal

variable {places : Nat} {a : Rat}

def magnitude (d : Decimal) : Rat :=
  d.digits * (10 : Rat) ^ d.exponent

theorem toRat_eq (d : Decimal) :
    d.toRat = if d.negative then -d.magnitude else d.magnitude :=
  rfl

theorem digits_ofMagnitude (negative : Bool) (hplaces : 0 < places) (ha : 0 < a) :
    ∃ e, (ofMagnitude negative places a).exponent = e ∧
      10 ^ (places - 1) * (10 : Rat) ^ e ≤ a ∧
      ((ofMagnitude negative places a).digits : Int) = nearestEven (a / (10 : Rat) ^ e) := by
  have hpow (e : Int) : (0 : Rat) < (10 : Rat) ^ e := zpow_pos (by norm_num) e
  have hlog : (10 : Rat) ^ Int.log 10 a ≤ a := Int.zpow_log_le_self (by decide) ha
  refine ⟨decimalExponent a - (places - 1), rfl, ?_, ?_⟩
  · rw [decimalExponent_eq_log ha, ← zpow_natCast, ← zpow_add₀ (by norm_num)]
    refine le_trans (le_of_eq ?_) hlog
    congr 1
    omega
  · refine Int.toNat_of_nonneg (le_nearestEven ?_)
    exact div_nonneg ha.le (hpow _).le

theorem le_digits_ofMagnitude (negative : Bool) (hplaces : 0 < places) (ha : 0 < a) :
    10 ^ (places - 1) ≤ (ofMagnitude negative places a).digits := by
  obtain ⟨e, -, hle, hdigits⟩ := digits_ofMagnitude negative hplaces ha
  have hpow : (0 : Rat) < (10 : Rat) ^ e := zpow_pos (by norm_num) e
  have hnearest : ((10 ^ (places - 1) : Nat) : Int) ≤ nearestEven (a / (10 : Rat) ^ e) :=
    le_nearestEven ((le_div_iff₀ hpow).mpr (by exact_mod_cast hle))
  rw [← hdigits] at hnearest
  exact_mod_cast hnearest

theorem digits_ofMagnitude_ne_zero (negative : Bool) (hplaces : 0 < places) (ha : 0 < a) :
    (ofMagnitude negative places a).digits ≠ 0 := by
  have hdigits := le_digits_ofMagnitude negative hplaces ha
  have hpos : 0 < 10 ^ (places - 1) := Nat.pow_pos (by decide)
  omega

theorem abs_magnitude_ofMagnitude_sub_le (negative : Bool) (hplaces : 0 < places) (ha : 0 < a) :
    |(ofMagnitude negative places a).magnitude - a| ≤ a / (2 * 10 ^ (places - 1)) := by
  obtain ⟨e, hexponent, hle, hdigits⟩ := digits_ofMagnitude negative hplaces ha
  have hpow : (0 : Rat) < (10 : Rat) ^ e := zpow_pos (by norm_num) e
  have hcast : ((ofMagnitude negative places a).digits : Rat) =
      (nearestEven (a / (10 : Rat) ^ e) : Rat) := by exact_mod_cast hdigits
  have heq : (ofMagnitude negative places a).magnitude - a =
      (nearestEven (a / (10 : Rat) ^ e) - a / (10 : Rat) ^ e) * (10 : Rat) ^ e := by
    rw [magnitude, hexponent, hcast, sub_mul, div_mul_cancel₀ _ hpow.ne']
  calc |(ofMagnitude negative places a).magnitude - a|
      = |nearestEven (a / (10 : Rat) ^ e) - a / (10 : Rat) ^ e| * (10 : Rat) ^ e := by
        rw [heq, abs_mul, abs_of_pos hpow]
    _ ≤ 1 / 2 * (10 : Rat) ^ e :=
        mul_le_mul_of_nonneg_right (abs_nearestEven_sub_le _) hpow.le
    _ ≤ a / (2 * 10 ^ (places - 1)) := by
        rw [le_div_iff₀ (by positivity)]
        linarith

theorem magnitude_ofMagnitude_bounds (negative : Bool) (hplaces : 0 < places) (ha : 0 < a) :
    a / 2 ≤ (ofMagnitude negative places a).magnitude ∧
      (ofMagnitude negative places a).magnitude ≤ a * 2 := by
  have hnear := abs_magnitude_ofMagnitude_sub_le negative hplaces ha
  have hhalf : a / (2 * 10 ^ (places - 1)) ≤ a / 2 := by
    refine div_le_div_of_nonneg_left ha.le two_pos ?_
    exact le_mul_of_one_le_right two_pos.le (one_le_pow₀ (by norm_num))
  obtain ⟨hbelow, habove⟩ := abs_le.mp (hnear.trans hhalf)
  constructor
  · linarith
  · linarith

end Decimal

namespace Binary

variable {f : Format}

def IsFinite : Binary f → Prop
  | .finite .. => True
  | .nan | .infinity _ => False

end Binary

namespace Single

open Binary

variable {d : Decimal} {m : Nat} {e : Int}

theorem ofDecimal_eq (d : Decimal) :
    ofDecimal d = (round (f := .double) d.negative d.toRat).convert :=
  ofDouble_eq_convert _

/-- Rounding to double precision first moves a decimal by far less than it may be moved. -/
theorem ofDecimal_eq_of_near (h : Format.single.Canonical m e) (hm : 0 < m)
    (hnear : |d.magnitude - m * (2 : Rat) ^ e| ≤ m * (2 : Rat) ^ e / 10 ^ 8) :
    ofDecimal d = .finite d.negative m e h := by
  have hbound : (Format.double.bound : Rat) = 2 ^ 53 := by exact_mod_cast rfl
  have hpow : (0 : Rat) < (2 : Rat) ^ e := two_zpow_pos e
  have hmge : (2 : Rat) ^ e ≤ m * (2 : Rat) ^ e :=
    le_mul_of_one_le_left hpow.le (by exact_mod_cast hm)
  have hmle : (m : Rat) * (2 : Rat) ^ e ≤ 2 ^ 24 * (2 : Rat) ^ e :=
    mul_le_mul_of_nonneg_right (by exact_mod_cast h.1.le) hpow.le
  obtain ⟨hlow, hhigh⟩ := abs_le.mp hnear
  have hd : 0 < d.magnitude := by linarith
  have hnormal : Format.double.Normal d.magnitude := by
    refine Format.normal_double (le_of_mul_le_mul_right ?_ two_pos) ?_
    · calc (2 : Rat) ^ (-300 : Int) * 2 = (2 : Rat) ^ (-300 + 1 : Int) :=
            (zpow_add_one₀ two_ne_zero _).symm
        _ ≤ (2 : Rat) ^ (-149 : Int) := zpow_le_zpow_right₀ one_le_two (by decide)
        _ ≤ m * (2 : Rat) ^ e := two_zpow_least_le h hm
        _ ≤ d.magnitude * 2 := by linarith
    · calc d.magnitude ≤ m * (2 : Rat) ^ e * 2 := by linarith
        _ < (2 : Rat) ^ (24 + 104 : Int) * 2 := mul_lt_mul_of_pos_right (lt_two_zpow h) two_pos
        _ = (2 : Rat) ^ (24 + 104 + 1 : Int) := (zpow_add_one₀ two_ne_zero _).symm
        _ ≤ (2 : Rat) ^ (300 : Int) := zpow_le_zpow_right₀ one_le_two (by decide)
  obtain ⟨k, c, hc, hround, herror⟩ :=
    exists_roundMagnitude_eq d.negative (by decide) hd hnormal
  rw [hbound] at herror
  obtain ⟨herrorlow, herrorhigh⟩ := abs_le.mp herror
  have hy : 0 < k * (2 : Rat) ^ c := by linarith
  rw [ofDecimal_eq, d.toRat_eq, round_signed _ _ hd, hround]
  change round d.negative (if d.negative then -(k * (2 : Rat) ^ c) else k * (2 : Rat) ^ c) = _
  rw [round_signed _ _ hy]
  exact roundMagnitude_eq_of_near d.negative h hm (abs_lt.mpr ⟨by linarith, by linarith⟩)

theorem ofDecimal_congr {d' : Decimal} (hnegative : d.negative = d'.negative)
    (hmagnitude : d.magnitude = d'.magnitude) : ofDecimal d = ofDecimal d' := by
  rw [ofDecimal_eq, ofDecimal_eq, d.toRat_eq, d'.toRat_eq, hnegative, hmagnitude]

theorem ofDecimal_zero (negative : Bool) : ofDecimal ⟨negative, 0, 0⟩ = zero negative := by
  have hd : Decimal.toRat ⟨negative, 0, 0⟩ = 0 := by simp [Decimal.toRat]
  rw [ofDecimal_eq, hd, Binary.round_zero, convert_zero]

theorem significant_finite (negative : Bool) (h : Format.single.Canonical m e) (places : Nat) :
    significant places (.finite negative m e h) =
      if m = 0 then ⟨negative, 0, 0⟩ else .ofMagnitude negative places (m * (2 : Rat) ^ e) :=
  rfl

theorem significant_cases {x : Single} (hx : x.IsFinite) (places : Nat) : ∃ negative,
    x.significant places = ⟨negative, 0, 0⟩ ∨
      ∃ a, (2 : Rat) ^ (-149 : Int) ≤ a ∧ a < (2 : Rat) ^ (128 : Int) ∧
        x.significant places = .ofMagnitude negative places a := by
  cases x with
  | nan | infinity => exact hx.elim
  | finite negative m e h =>
    rw [significant_finite]
    split_ifs with hm
    · exact ⟨negative, Or.inl rfl⟩
    · have hlow := two_zpow_least_le h (Nat.pos_of_ne_zero hm)
      exact ⟨negative, Or.inr ⟨m * (2 : Rat) ^ e, hlow, lt_two_zpow h, rfl⟩⟩

theorem ofDecimal_significant_nine {x : Single} (hx : x.IsFinite) :
    ofDecimal (x.significant 9) = x := by
  cases x with
  | nan | infinity => exact hx.elim
  | finite negative m e h =>
    rw [significant_finite]
    split_ifs with hm
    · subst hm
      have he : e = Format.single.least := h.2.2.2.resolve_right (by decide)
      subst he
      exact ofDecimal_zero negative
    · have hm : 0 < m := Nat.pos_of_ne_zero hm
      have ha : 0 < m * (2 : Rat) ^ e := mul_pos (by exact_mod_cast hm) (two_zpow_pos e)
      have hnear := Decimal.abs_magnitude_ofMagnitude_sub_le negative (by decide : 0 < 9) ha
      exact ofDecimal_eq_of_near h hm (by linarith)

/-- How many significant digits a finite number is written with. -/
def places (x : Single) : Nat :=
  x.places?.getD 0

/-- The search ends at nine digits, if not before. -/
theorem places?_eq {x : Single} (hx : x.IsFinite) : x.places? = some x.places := by
  have hnine : x.readsBack 9 = true := decide_eq_true (ofDecimal_significant_nine hx)
  cases h : x.places? with
  | none =>
    have hnone := List.find?_eq_none.mp h 9 (List.mem_range'_1.mpr (by decide))
    exact absurd hnine hnone
  | some n => rw [places, h, Option.getD_some]

theorem ofDecimal_significant_places {x : Single} (hx : x.IsFinite) :
    ofDecimal (x.significant x.places) = x := by
  have hback : x.readsBack x.places = true := List.find?_some (places?_eq hx)
  exact of_decide_eq_true hback

theorem places_pos {x : Single} (hx : x.IsFinite) : 0 < x.places := by
  have hmem : x.places ∈ List.range' 1 9 := List.mem_of_find?_eq_some (places?_eq hx)
  exact (List.mem_range'_1.mp hmem).1

end Single

end Abacus
