import Abacus.Number.Single
import Abacus.Proofs.Number.Rounding

/-! # Correct rounding

The multiples of a power of two form a grid, and the numbers of a format form one
at each place. Rounding gives the number of the format that is nearest, the even one
of two, or an infinity from half a place above the largest number on.
-/

namespace Abacus

variable {x y z : Rat} {d e : Int}

theorem abs_sub_nearestEven_le (x : Rat) : |x - nearestEven x| ≤ 1 / 2 := by
  rw [abs_sub_comm]
  exact abs_nearestEven_sub_le x

theorem one_half_le_abs_sub {j : Int} (hj : j ≠ nearestEven x) : 1 / 2 ≤ |x - j| := by
  have hone : (1 : Rat) ≤ |(j : Rat) - nearestEven x| := by
    exact_mod_cast Int.one_le_abs (sub_ne_zero.mpr hj)
  have hle := abs_sub_le (j : Rat) x (nearestEven x)
  have hhalf := abs_sub_nearestEven_le x
  rw [abs_sub_comm]
  linarith

theorem abs_sub_nearestEven_le_abs_sub (x : Rat) (j : Int) : |x - nearestEven x| ≤ |x - j| := by
  rcases eq_or_ne j (nearestEven x) with rfl | hj
  · exact le_rfl
  · exact (abs_sub_nearestEven_le x).trans (one_half_le_abs_sub hj)

theorem even_nearestEven (h : |x - nearestEven x| = 1 / 2) : nearestEven x % 2 = 0 := by
  have hle : (x.floor : Rat) ≤ x := Rat.floor_le x
  have hlt : x - 1 < x.floor := Rat.lt_floor
  revert h
  simp only [nearestEven]
  split_ifs with hbelow habove heven
  · intro h
    rw [abs_of_nonneg (by linarith)] at h
    linarith
  · intro h
    push_cast at h
    rw [abs_of_neg (by linarith)] at h
    linarith
  · exact fun _ => heven
  · intro _
    omega

theorem eq_or_even_nearestEven {j : Int} (h : |x - j| = |x - nearestEven x|) :
    j = nearestEven x ∨ nearestEven x % 2 = 0 := by
  rcases eq_or_ne j (nearestEven x) with hj | hj
  · exact Or.inl hj
  · have hhalf := one_half_le_abs_sub hj
    exact Or.inr (even_nearestEven (le_antisymm (abs_sub_nearestEven_le x) (h ▸ hhalf)))

theorem nearestEven_intCast (j : Int) : nearestEven j = j :=
  le_antisymm (nearestEven_le le_rfl) (le_nearestEven le_rfl)

theorem nearestEven_lt_iff {n : Int} (hn : n % 2 = 0) : nearestEven x < n ↔ x < n - 1 / 2 := by
  constructor
  · intro hlt
    by_contra hle
    have hle : (n : Rat) - 1 / 2 ≤ x := not_lt.mp hle
    have hlast : ((nearestEven x : Int) : Rat) ≤ n - 1 := by
      exact_mod_cast Int.le_sub_one_of_lt hlt
    have hnear := (abs_le.mp (abs_sub_nearestEven_le x)).2
    have hlast : nearestEven x = n - 1 := by
      have heq : ((nearestEven x : Int) : Rat) = (n - 1 : Int) := by
        push_cast
        linarith
      exact_mod_cast heq
    have heven : nearestEven x % 2 = 0 := by
      refine even_nearestEven ?_
      rw [hlast] at hnear ⊢
      push_cast at hnear ⊢
      rw [abs_of_nonneg (by linarith)]
      linarith
    omega
  · intro hlt
    have hnear := (abs_le.mp (abs_sub_nearestEven_le x)).1
    have hlt : ((nearestEven x : Int) : Rat) < n := by linarith
    exact_mod_cast hlt

theorem nearestEven_congr (h : ∀ j : Int, |x - y| < |x - (j + 1 / 2)|) :
    nearestEven x = nearestEven y := by
  have hx := abs_le.mp (abs_sub_nearestEven_le x)
  have hy := abs_le.mp (abs_sub_nearestEven_le y)
  rcases lt_trichotomy (nearestEven x) (nearestEven y) with hlt | heq | hlt
  · have hlt : ((nearestEven x : Int) : Rat) + 1 ≤ nearestEven y := by exact_mod_cast hlt
    have hfar := h (nearestEven x)
    rw [abs_of_nonpos (by linarith), abs_of_nonpos (by linarith)] at hfar
    linarith
  · exact heq
  · have hlt : ((nearestEven y : Int) : Rat) + 1 ≤ nearestEven x := by exact_mod_cast hlt
    have hfar := h (nearestEven y)
    rw [abs_of_nonneg (by linarith), abs_of_nonneg (by linarith)] at hfar
    linarith

def OnGrid (e : Int) (x : Rat) : Prop :=
  ∃ j : Int, x = j * (2 : Rat) ^ e

/-- The nearest multiple of two to the `e`. -/
def snap (e : Int) (x : Rat) : Rat :=
  nearestEven (x / (2 : Rat) ^ e) * (2 : Rat) ^ e

open Binary (two_zpow_pos bound_mul_two_zpow abs_div_two_zpow_sub)

namespace OnGrid

theorem mono (h : OnGrid e x) (hde : d ≤ e) : OnGrid d x := by
  obtain ⟨j, rfl⟩ := h
  obtain ⟨k, rfl⟩ : ∃ k : Nat, e = d + k := ⟨(e - d).toNat, by omega⟩
  refine ⟨j * 2 ^ k, ?_⟩
  rw [zpow_add₀ two_ne_zero, zpow_natCast]
  push_cast
  ring

theorem sub (hx : OnGrid e x) (hy : OnGrid e y) : OnGrid e (x - y) := by
  obtain ⟨i, rfl⟩ := hx
  obtain ⟨j, rfl⟩ := hy
  refine ⟨i - j, ?_⟩
  push_cast
  ring

theorem add (hx : OnGrid e x) (hy : OnGrid e y) : OnGrid e (x + y) := by
  obtain ⟨i, rfl⟩ := hx
  obtain ⟨j, rfl⟩ := hy
  refine ⟨i + j, ?_⟩
  push_cast
  ring

theorem intCast_mul (k : Int) (hx : OnGrid e x) : OnGrid e (k * x) := by
  obtain ⟨i, rfl⟩ := hx
  refine ⟨k * i, ?_⟩
  push_cast
  ring

theorem eq_zero (h : OnGrid e x) (hx : |x| < (2 : Rat) ^ e) : x = 0 := by
  obtain ⟨j, rfl⟩ := h
  rw [abs_mul, abs_of_pos (two_zpow_pos e), mul_lt_iff_lt_one_left (two_zpow_pos e)] at hx
  have hj : j = 0 := Int.abs_lt_one_iff.mp (by exact_mod_cast hx)
  simp [hj]

end OnGrid

theorem div_intCast_mul_zpow (j e : Int) : (j : Rat) * (2 : Rat) ^ e / (2 : Rat) ^ e = j :=
  mul_div_cancel_right₀ _ (two_zpow_pos e).ne'

theorem snap_eq_self (h : OnGrid e x) : snap e x = x := by
  obtain ⟨j, rfl⟩ := h
  rw [snap, div_intCast_mul_zpow, nearestEven_intCast]

theorem snap_le (hz : OnGrid e z) (h : x ≤ z) : snap e x ≤ z := by
  obtain ⟨j, rfl⟩ := hz
  have hle : nearestEven (x / (2 : Rat) ^ e) ≤ j :=
    nearestEven_le ((div_le_iff₀ (two_zpow_pos e)).mpr h)
  exact mul_le_mul_of_nonneg_right (by exact_mod_cast hle) (two_zpow_pos e).le

theorem le_snap (hz : OnGrid e z) (h : z ≤ x) : z ≤ snap e x := by
  obtain ⟨j, rfl⟩ := hz
  have hle : j ≤ nearestEven (x / (2 : Rat) ^ e) :=
    le_nearestEven ((le_div_iff₀ (two_zpow_pos e)).mpr h)
  exact mul_le_mul_of_nonneg_right (by exact_mod_cast hle) (two_zpow_pos e).le

theorem two_mul_abs_sub_snap_le (e : Int) (x : Rat) : 2 * |x - snap e x| ≤ (2 : Rat) ^ e := by
  have hnear := abs_sub_nearestEven_le (x / (2 : Rat) ^ e)
  rw [abs_div_two_zpow_sub, div_le_iff₀ (two_zpow_pos e)] at hnear
  rw [snap]
  linarith

theorem abs_sub_snap_le_abs_sub (hy : OnGrid e y) : |x - snap e x| ≤ |x - y| := by
  obtain ⟨j, rfl⟩ := hy
  have hnear := abs_sub_nearestEven_le_abs_sub (x / (2 : Rat) ^ e) j
  rw [abs_div_two_zpow_sub, abs_div_two_zpow_sub] at hnear
  exact (div_le_div_iff_of_pos_right (two_zpow_pos e)).mp hnear

theorem eq_snap_or_even (hy : OnGrid e y) (h : |x - y| = |x - snap e x|) :
    y = snap e x ∨ nearestEven (x / (2 : Rat) ^ e) % 2 = 0 := by
  obtain ⟨j, rfl⟩ := hy
  have htie : |x / (2 : Rat) ^ e - j| = |x / (2 : Rat) ^ e - nearestEven (x / (2 : Rat) ^ e)| := by
    rw [abs_div_two_zpow_sub, abs_div_two_zpow_sub, h, snap]
  rcases eq_or_even_nearestEven htie with hj | heven
  · rw [snap, ← hj]
    exact Or.inl rfl
  · exact Or.inr heven

namespace Binary

theorem signed_eq (negative : Bool) (m : Nat) (e : Int) :
    signed negative m e = withSign negative m * (2 : Rat) ^ e := by
  cases negative <;> simp [signed, withSign]

theorem signed_not (negative : Bool) (m : Nat) (e : Int) :
    signed (!negative) m e = -signed negative m e := by
  cases negative <;> simp [signed]

theorem signed_eq_zero_iff {negative : Bool} {m : Nat} : signed negative m e = 0 ↔ m = 0 := by
  have hpow : (2 : Rat) ^ e ≠ 0 := (two_zpow_pos e).ne'
  cases negative <;> simp [signed, hpow]

theorem convert_zero {f g : Format} (negative : Bool) :
    ((zero negative : Binary f).convert : Binary g) = zero negative := by
  have hzero : signed negative 0 f.least = 0 := signed_eq_zero_iff.mpr rfl
  change round negative (signed negative 0 f.least) = _
  rw [hzero, round_zero]

theorem eq_of_ofParts_eq_infinity {f : Format} {negative s : Bool} {m : Nat} {e : Int}
    (h : (ofParts negative m e : Binary f) = .infinity s) : s = negative := by
  unfold ofParts at h
  split at h
  · cases h
  · cases h
    rfl

theorem eq_of_roundMagnitude_eq_infinity {f : Format} {negative s : Bool} {a : Rat}
    (h : (roundMagnitude negative a : Binary f) = .infinity s) : s = negative := by
  simp only [roundMagnitude] at h
  split at h
  · exact eq_of_ofParts_eq_infinity h
  · exact eq_of_ofParts_eq_infinity h

theorem eq_of_convert_eq_infinity {f g : Format} {negative s : Bool} {m : Nat} {e : Int}
    {canonical : f.Canonical m e}
    (h : ((finite negative m e canonical : Binary f).convert : Binary g) = .infinity s) :
    s = negative := by
  change round negative (signed negative m e) = _ at h
  by_cases hm : m = 0
  · rw [signed_eq_zero_iff.mpr hm, round_zero] at h
    cases h
  · have ha : 0 < (m : Rat) * (2 : Rat) ^ e :=
      mul_pos (Nat.cast_pos.mpr (Nat.pos_of_ne_zero hm)) (two_zpow_pos e)
    rw [signed, round_signed _ _ ha] at h
    exact eq_of_roundMagnitude_eq_infinity h

theorem abs_signed (negative : Bool) (m : Nat) (e : Int) :
    |signed negative m e| = m * (2 : Rat) ^ e := by
  have habs : |(m : Rat) * (2 : Rat) ^ e| = m * (2 : Rat) ^ e :=
    abs_of_nonneg (mul_nonneg (Nat.cast_nonneg m) (two_zpow_pos e).le)
  cases negative with
  | false => exact habs
  | true => exact (abs_neg _).trans habs

theorem onGrid_signed (negative : Bool) (m : Nat) (e : Int) : OnGrid e (signed negative m e) :=
  ⟨withSign negative m, signed_eq negative m e⟩

end Binary

namespace Format

variable {f : Format} {a : Rat}

def overflow (f : Format) : Rat :=
  (f.bound - 1 / 2) * (2 : Rat) ^ f.greatest

/-- The value of a finite number. -/
def Represents (f : Format) (y : Rat) : Prop :=
  ∃ negative m e, f.Canonical m e ∧ Binary.signed negative m e = y

theorem place_spec (ha : 0 < a) : f.least ≤ f.place a ∧ a < f.bound * (2 : Rat) ^ f.place a ∧
    (f.place a = f.least ∨ f.bound * (2 : Rat) ^ f.place a ≤ 2 * a) := by
  have hlow : (2 : Rat) ^ Int.log 2 a ≤ a := Int.zpow_log_le_self (by decide) ha
  have hhigh : a < (2 : Rat) ^ (Int.log 2 a + 1) := Int.lt_zpow_succ_log_self (by decide) a
  have hplace : f.place a = max (Int.log 2 a - (f.precision - 1)) f.least := by
    rw [place, binaryExponent_eq_log ha]
  rw [bound_mul_two_zpow]
  refine ⟨by omega, hhigh.trans_le (zpow_le_zpow_right₀ one_le_two (by omega)), ?_⟩
  rcases le_total (Int.log 2 a - (f.precision - 1)) f.least with hle | hle
  · exact Or.inl (hplace.trans (max_eq_right hle))
  · right
    have hlog : (f.precision + f.place a : Int) = Int.log 2 a + 1 := by omega
    rw [hlog, zpow_add_one₀ two_ne_zero]
    linarith

theorem Represents.neg (h : f.Represents y) : f.Represents (-y) := by
  obtain ⟨negative, m, e, hm, rfl⟩ := h
  exact ⟨!negative, m, e, hm, Binary.signed_not negative m e⟩

theorem Represents.onGrid_or_lt (h : f.Represents y) (e : Int) :
    OnGrid e y ∨ 2 * y < f.bound * (2 : Rat) ^ e := by
  obtain ⟨negative, m, d, hm, rfl⟩ := h
  rcases le_or_gt e d with hed | hde
  · exact Or.inl ((Binary.onGrid_signed negative m d).mono hed)
  · right
    calc 2 * Binary.signed negative m d ≤ 2 * (m * (2 : Rat) ^ d) := by
          rw [← Binary.abs_signed negative]
          linarith [le_abs_self (Binary.signed negative m d)]
      _ < 2 * (f.bound * (2 : Rat) ^ d) := by
          have hlt : (m : Rat) < f.bound := by exact_mod_cast hm.1
          have hpow := two_zpow_pos d
          gcongr
      _ = f.bound * (2 : Rat) ^ (d + 1) := by
          rw [zpow_add_one₀ two_ne_zero]
          ring
      _ ≤ f.bound * (2 : Rat) ^ e :=
          mul_le_mul_of_nonneg_left (zpow_le_zpow_right₀ one_le_two hde) (Nat.cast_nonneg _)

theorem bound_half_onGrid (f : Format) (e : Int) :
    ∃ z, OnGrid e z ∧ 2 * z = f.bound * (2 : Rat) ^ e := by
  refine ⟨_, ⟨2 ^ (f.precision - 1), rfl⟩, ?_⟩
  rw [f.bound_eq_two_mul]
  push_cast
  ring

theorem abs_sub_snap_place_le (ha : 0 < a) (hy : f.Represents y) :
    |a - snap (f.place a) a| ≤ |a - y| ∧ (|a - y| = |a - snap (f.place a) a| →
      y = snap (f.place a) a ∨ nearestEven (a / (2 : Rat) ^ f.place a) % 2 = 0) := by
  obtain ⟨hleast, -, hfull⟩ := f.place_spec ha
  by_cases hgrid : OnGrid (f.place a) y
  · exact ⟨abs_sub_snap_le_abs_sub hgrid, eq_snap_or_even hgrid⟩
  · have hlt := (hy.onGrid_or_lt (f.place a)).resolve_left hgrid
    have hfull : f.bound * (2 : Rat) ^ f.place a ≤ 2 * a := by
      refine hfull.resolve_left fun hplace => hgrid ?_
      obtain ⟨negative, m, e, hm, rfl⟩ := hy
      exact (Binary.onGrid_signed negative m e).mono (hplace ▸ hm.2.1)
    obtain ⟨z, hz, hzfull⟩ := f.bound_half_onGrid (f.place a)
    have hnear : |a - snap (f.place a) a| ≤ |a - z| := abs_sub_snap_le_abs_sub hz
    have hcloser : |a - z| < |a - y| := by
      rw [abs_of_nonneg (by linarith), abs_of_nonneg (by linarith)]
      linarith
    exact ⟨hnear.trans hcloser.le, fun htie => absurd htie (hnear.trans_lt hcloser).ne'⟩

end Format

namespace Binary

variable {f : Format} {a : Rat} {m : Nat}

/--
The result of rounding: the nearest finite number, the even one of two, with the sign of what is
rounded; an infinity where that is too large; and a zero for zero.
-/
inductive Rounded (zeroSign : Bool) (x : Rat) : Binary f → Prop
  | zero (hx : x = 0) : Rounded zeroSign x (zero zeroSign)
  | finite {negative : Bool} {m : Nat} {e : Int} (h : f.Canonical m e) (hx : x ≠ 0)
      (hsign : negative = true ↔ x < 0) (hrange : |x| < f.overflow)
      (hnearest : ∀ y, f.Represents y → |x - signed negative m e| ≤ |x - y|)
      (heven : ∀ y, f.Represents y → |x - y| = |x - signed negative m e| →
        y = signed negative m e ∨ m % 2 = 0) :
      Rounded zeroSign x (.finite negative m e h)
  | infinity {negative : Bool} (hsign : negative = true ↔ x < 0) (hrange : f.overflow ≤ |x|) :
      Rounded zeroSign x (.infinity negative)

theorem lt_overflow (he : e ≤ f.greatest) (ha : a < (f.bound - 1 / 2) * (2 : Rat) ^ e) :
    a < f.overflow := by
  have hbound : (1 : Rat) ≤ f.bound := by exact_mod_cast f.bound_pos
  refine ha.trans_le (mul_le_mul_of_nonneg_left (zpow_le_zpow_right₀ one_le_two he) ?_)
  linarith

theorem lt_overflow_of_lt_bound (he : e < f.greatest) (ha : a < f.bound * (2 : Rat) ^ e) :
    a < f.overflow := by
  have hone : (1 : Rat) ≤ f.bound := by exact_mod_cast f.bound_pos
  have hstep := mul_le_mul_of_nonneg_right hone (two_zpow_pos e).le
  refine lt_overflow (Int.add_one_le_of_lt he) (ha.trans_le ?_)
  rw [zpow_add_one₀ two_ne_zero]
  linarith

theorem overflow_le (he : f.greatest ≤ e) (ha : (f.bound - 1 / 2) * (2 : Rat) ^ e ≤ a) :
    f.overflow ≤ a := by
  have hbound : (1 : Rat) ≤ f.bound := by exact_mod_cast f.bound_pos
  refine (mul_le_mul_of_nonneg_left (zpow_le_zpow_right₀ one_le_two he) ?_).trans ha
  linarith

theorem lt_bound_iff (hm : nearestEven (a / (2 : Rat) ^ e) = m) :
    m < f.bound ↔ a < (f.bound - 1 / 2) * (2 : Rat) ^ e := by
  have heven : (f.bound : Int) % 2 = 0 := by
    have := f.bound_eq_two_mul
    omega
  have hlt := nearestEven_lt_iff (x := a / (2 : Rat) ^ e) heven
  rw [hm, div_lt_iff₀ (two_zpow_pos e)] at hlt
  exact_mod_cast hlt

theorem exists_significand (ha : 0 < a) : ∃ m : Nat,
    nearestEven (a / (2 : Rat) ^ f.place a) = m ∧ m ≤ f.bound ∧
      (f.place a = f.least ∨ f.bound ≤ 2 * m) := by
  obtain ⟨-, hlt, hfull⟩ := f.place_spec ha
  have hpow := two_zpow_pos (f.place a)
  have hnonneg : 0 ≤ nearestEven (a / (2 : Rat) ^ f.place a) :=
    le_nearestEven (by exact_mod_cast (div_pos ha hpow).le)
  have hle : nearestEven (a / (2 : Rat) ^ f.place a) ≤ f.bound :=
    nearestEven_le ((div_le_iff₀ hpow).mpr (by exact_mod_cast hlt.le))
  obtain ⟨m, hm⟩ := Int.eq_ofNat_of_zero_le hnonneg
  refine ⟨m, hm, by omega, hfull.imp_right fun hfull => ?_⟩
  obtain ⟨half, hhalf⟩ : ∃ half, f.bound = 2 * half := ⟨_, f.bound_eq_two_mul⟩
  have hcast : (f.bound : Rat) = 2 * half := by exact_mod_cast hhalf
  have hhalf_le : (half : Int) ≤ nearestEven (a / (2 : Rat) ^ f.place a) := by
    refine le_nearestEven ((le_div_iff₀ hpow).mpr ?_)
    rw [hcast] at hfull
    push_cast
    linarith
  omega

theorem canonical_iff_lt_overflow (ha : 0 < a) (hm : nearestEven (a / (2 : Rat) ^ f.place a) = m)
    (hmlt : m < f.bound) (hmfull : f.place a = f.least ∨ f.bound ≤ 2 * m) :
    f.Canonical m (f.place a) ↔ a < f.overflow := by
  obtain ⟨hleast, -, hfull⟩ := f.place_spec ha
  constructor
  · intro h
    exact lt_overflow h.2.2.1 ((lt_bound_iff hm).mp hmlt)
  · intro hrange
    refine ⟨hmlt, hleast, not_lt.mp fun hgreatest => hrange.not_ge ?_, hmfull⟩
    have hfull := hfull.resolve_left (f.least_le_greatest.trans_lt hgreatest).ne'
    refine overflow_le (e := f.place a - 1) (by omega) ?_
    rw [zpow_sub_one₀ two_ne_zero]
    linarith [two_zpow_pos (f.place a)]

theorem canonical_succ_iff_lt_overflow {half : Nat} (ha : 0 < a)
    (hm : nearestEven (a / (2 : Rat) ^ f.place a) = f.bound) (hhalf : f.bound = 2 * half) :
    f.Canonical half (f.place a + 1) ↔ a < f.overflow := by
  obtain ⟨hleast, hlt, -⟩ := f.place_spec ha
  have hpos := f.bound_pos
  constructor
  · intro h
    exact lt_overflow_of_lt_bound (Int.lt_of_add_one_le h.2.2.1) hlt
  · intro hrange
    refine ⟨by omega, by omega, not_lt.mp fun hgreatest => hrange.not_ge ?_, Or.inr hhalf.le⟩
    have hle := not_lt.mp (mt (lt_bound_iff hm).mpr (lt_irrefl _))
    exact overflow_le (Int.lt_add_one_iff.mp hgreatest) hle

theorem exists_ofParts (ha : 0 < a) (hprec : 1 < f.precision) :
    ∃ m e, (∀ negative, roundMagnitude (f := f) negative a = ofParts negative m e) ∧
      m * (2 : Rat) ^ e = snap (f.place a) a ∧ (f.Canonical m e ↔ a < f.overflow) ∧
      (nearestEven (a / (2 : Rat) ^ f.place a) % 2 = 0 → m % 2 = 0) := by
  obtain ⟨m, hm, hmle, hmfull⟩ := exists_significand (f := f) ha
  have hround (negative : Bool) := roundMagnitude_eq (f := f) negative rfl hm
  have hsnap : m * (2 : Rat) ^ f.place a = snap (f.place a) a := by
    rw [snap, hm]
    rfl
  rcases hmle.lt_or_eq with hmlt | rfl
  · have hcanonical := canonical_iff_lt_overflow ha hm hmlt hmfull
    refine ⟨m, f.place a, fun negative => ?_, hsnap, hcanonical, by omega⟩
    rw [hround, if_neg hmlt.ne]
  · obtain ⟨k, hk⟩ : ∃ k, f.precision - 1 = k + 1 := ⟨f.precision - 2, by omega⟩
    have hhalf : f.bound = 2 * 2 ^ (k + 1) := hk ▸ f.bound_eq_two_mul
    have hdiv : f.bound / 2 = 2 ^ (k + 1) := by omega
    have hcanonical := canonical_succ_iff_lt_overflow ha hm hhalf
    refine ⟨2 ^ (k + 1), f.place a + 1, fun negative => ?_, ?_, hcanonical, ?_⟩
    · rw [hround, if_pos rfl, hdiv]
    · rw [← hsnap, hhalf, zpow_add_one₀ two_ne_zero]
      push_cast
      ring
    · intro _
      rw [pow_succ]
      exact Nat.mul_mod_left _ _

theorem abs_sub_of_negative (negative : Bool) (a y : Rat) :
    |(if negative then -a else a) - y| = |a - if negative then -y else y| := by
  cases negative with
  | false => rfl
  | true =>
    simp only [if_true]
    rw [← abs_neg]
    ring_nf

theorem rounded_roundMagnitude (zeroSign negative : Bool) (ha : 0 < a) (hprec : 1 < f.precision) :
    Rounded zeroSign (if negative then -a else a) (roundMagnitude (f := f) negative a) := by
  have hsign : negative = true ↔ (if negative then -a else a) < 0 := by
    cases negative <;> simp [ha, ha.le]
  have hzero : (if negative then -a else a) ≠ 0 := by
    cases negative <;> simp [ha.ne']
  have habs : |if negative then -a else a| = a := by
    cases negative <;> simp [abs_of_pos ha]
  obtain ⟨m, e, hround, hsnap, hrange, heven⟩ := exists_ofParts (f := f) ha hprec
  rw [hround]
  by_cases h : f.Canonical m e
  · rw [ofParts_of_canonical negative h]
    have hvalue : (if negative then -signed negative m e else signed negative m e) =
        snap (f.place a) a := by
      rw [← hsnap]
      cases negative <;> simp [signed]
    have hmirror {y : Rat} (hy : f.Represents y) : f.Represents (if negative then -y else y) := by
      cases negative
      · exact hy
      · exact hy.neg
    refine .finite h hzero hsign (habs.trans_lt (hrange.mp h)) ?_ ?_
    · intro y hy
      rw [abs_sub_of_negative, abs_sub_of_negative, hvalue]
      exact (Format.abs_sub_snap_place_le ha (hmirror hy)).1
    · intro y hy htie
      rw [abs_sub_of_negative, abs_sub_of_negative, hvalue] at htie
      refine ((Format.abs_sub_snap_place_le ha (hmirror hy)).2 htie).imp ?_ heven
      rw [← hvalue]
      cases negative
      · exact id
      · exact neg_inj.mp
  · rw [ofParts, dif_neg h]
    exact .infinity hsign (habs.symm ▸ not_lt.mp (mt hrange.mpr h))

/-- Rounding is correct in every format whose significands have more than one bit. -/
theorem rounded_round (hprec : 1 < f.precision) (zeroSign : Bool) (x : Rat) :
    Rounded zeroSign x (round (f := f) zeroSign x) := by
  rcases lt_trichotomy x 0 with hx | rfl | hx
  · rw [round, if_neg hx.ne, if_pos hx]
    have h := rounded_roundMagnitude zeroSign true (neg_pos.mpr hx) hprec
    rwa [if_pos rfl, neg_neg] at h
  · rw [round, if_pos rfl]
    exact .zero rfl
  · rw [round, if_neg hx.ne', if_neg hx.not_gt]
    exact rounded_roundMagnitude zeroSign false hx hprec

end Binary

namespace Format

variable {f g : Format} {a : Rat} {c : Int}

def Normal (f : Format) (a : Rat) : Prop :=
  f.bound * (2 : Rat) ^ f.least ≤ 2 * a ∧ a < f.overflow

theorem Normal.full (h : f.Normal a) (ha : 0 < a) :
    f.bound * (2 : Rat) ^ f.place a ≤ 2 * a := by
  rcases (f.place_spec ha).2.2 with hplace | hfull
  · rw [hplace]
    exact h.1
  · exact hfull

theorem Normal.add_place_le (h : f.Normal a) (ha : 0 < a) (hc : a < (2 : Rat) ^ c) :
    f.precision + f.place a ≤ c := by
  have hfull := h.full ha
  rw [bound_mul_two_zpow] at hfull
  have hlt : (2 : Rat) ^ (f.precision + f.place a) < (2 : Rat) ^ (c + 1) := by
    rw [zpow_add_one₀ two_ne_zero]
    linarith
  exact Int.lt_add_one_iff.mp ((zpow_lt_zpow_iff_right₀ one_lt_two).mp hlt)

theorem Normal.add_place_le_add_place (h : g.Normal a) (ha : 0 < a) (f : Format) :
    g.precision + g.place a ≤ f.precision + f.place a := by
  refine h.add_place_le ha ?_
  rw [← bound_mul_two_zpow]
  exact (f.place_spec ha).2.1

theorem Normal.onGrid (h : f.Normal a) (ha : 0 < a) (hgrid : OnGrid c a)
    (hlt : a < (2 : Rat) ^ (f.precision + c)) : OnGrid (f.place a) a := by
  have hle := h.add_place_le ha hlt
  exact hgrid.mono (by omega)

theorem Normal.snap_pos (h : f.Normal a) (ha : 0 < a) : 0 < snap (f.place a) a := by
  obtain ⟨z, hz, hfull⟩ := f.bound_half_onGrid (f.place a)
  have hpos : 0 < f.bound * (2 : Rat) ^ f.place a :=
    mul_pos (by exact_mod_cast f.bound_pos) (two_zpow_pos _)
  have hle : z ≤ snap (f.place a) a := le_snap hz (by linarith [h.full ha])
  linarith

theorem normal_double (hlow : (2 : Rat) ^ (-300 : Int) ≤ a) (hhigh : a < (2 : Rat) ^ (300 : Int)) :
    double.Normal a := by
  constructor
  · rw [bound_mul_two_zpow]
    have hle : (2 : Rat) ^ (53 + -1074 : Int) ≤ (2 : Rat) ^ (-300 : Int) :=
      zpow_le_zpow_right₀ one_le_two (by decide)
    exact hle.trans (by linarith [two_zpow_pos (-300)])
  · refine Binary.lt_overflow_of_lt_bound (e := 247) (by decide) ?_
    rw [bound_mul_two_zpow]
    exact hhigh

end Format

namespace Binary

variable {f : Format} {a : Rat}

theorem exists_roundMagnitude_eq (negative : Bool) (hprec : 1 < f.precision) (ha : 0 < a)
    (hnormal : f.Normal a) :
    ∃ m e, ∃ h : f.Canonical m e, roundMagnitude negative a = .finite negative m e h ∧
      |m * (2 : Rat) ^ e - a| ≤ a / f.bound := by
  obtain ⟨m, e, hround, hvalue, hrange, -⟩ := exists_ofParts (f := f) ha hprec
  have h : f.Canonical m e := hrange.mpr hnormal.2
  refine ⟨m, e, h, by rw [hround, ofParts_of_canonical], ?_⟩
  have hbound : (0 : Rat) < f.bound := by exact_mod_cast f.bound_pos
  have hfull := hnormal.full ha
  have hnear := mul_le_mul_of_nonneg_right (two_mul_abs_sub_snap_le (f.place a) a) hbound.le
  rw [hvalue, abs_sub_comm, le_div_iff₀ hbound]
  linarith

end Binary

/-- What packing refuses is what rounds to an infinity. -/
theorem Single.ofDouble_eq_convert (x : Double) : Single.ofDouble x = x.convert := by
  cases x with
  | nan | infinity => rfl
  | finite negative m e h =>
    unfold Single.ofDouble Double.pack?
    cases hconvert : ((Binary.finite negative m e h : Double).convert : Single) with
    | infinity s =>
      obtain rfl := Binary.eq_of_convert_eq_infinity hconvert
      rfl
    | nan | finite => rfl

end Abacus
