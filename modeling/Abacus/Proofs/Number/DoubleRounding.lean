import Abacus.Number.Single
import Abacus.Proofs.Number.Nearest

/-! # Rounding twice

A sum, a product or a quotient of two numbers of a format does not lie as near to a
halfway point as rounding to more than twice the precision could move it, unless that
does not move it at all. So it may be rounded to the wide format first.
-/

namespace Abacus

variable {f g : Format} {a b x y z : Rat} {c d e : Int} {m n : Nat}

open Binary

/-- In the middle between two neighbours on the grid. -/
def Halfway (e : Int) (x : Rat) : Prop :=
  ∃ j : Int, 2 * x = (2 * j + 1) * (2 : Rat) ^ e

theorem Halfway.le_two_mul_abs_sub (hx : Halfway e x) (hz : OnGrid e z) :
    (2 : Rat) ^ e ≤ 2 * |z - x| := by
  obtain ⟨j, hx⟩ := hx
  obtain ⟨i, rfl⟩ := hz
  have hodd : (1 : Rat) ≤ |((2 * i - (2 * j + 1) : Int) : Rat)| := by
    exact_mod_cast Int.one_le_abs (by omega)
  calc (2 : Rat) ^ e ≤ |((2 * i - (2 * j + 1) : Int) : Rat)| * (2 : Rat) ^ e :=
        le_mul_of_one_le_left (two_zpow_pos e).le hodd
    _ = |2 * (i * (2 : Rat) ^ e) - 2 * x| := by
        rw [← abs_of_pos (two_zpow_pos e), ← abs_mul, abs_of_pos (two_zpow_pos e), hx]
        push_cast
        ring_nf
    _ = 2 * |i * (2 : Rat) ^ e - x| := by
        rw [← mul_sub, abs_mul, abs_two]

theorem Halfway.onGrid (hx : Halfway e x) (hd : d < e) : OnGrid d x := by
  obtain ⟨j, hx⟩ := hx
  refine OnGrid.mono ⟨2 * j + 1, ?_⟩ (Int.le_sub_one_of_lt hd)
  rw [zpow_sub_one₀ two_ne_zero]
  push_cast
  linarith

theorem nearestEven_div_congr (h : ∀ z, Halfway e z → |x - y| < |x - z|) :
    nearestEven (x / (2 : Rat) ^ e) = nearestEven (y / (2 : Rat) ^ e) := by
  have hpow := two_zpow_pos e
  refine nearestEven_congr fun j => ?_
  have hfar := h ((j + 1 / 2) * (2 : Rat) ^ e) ⟨j, by ring⟩
  rw [abs_div_two_zpow_sub, abs_div_two_zpow_sub, div_mul_cancel₀ _ hpow.ne']
  exact (div_lt_div_iff_of_pos_right hpow).mpr hfar

/-- What half a place of the wide format cannot move to a halfway point of the narrow one. -/
def Clear (f g : Format) (a : Rat) : Prop :=
  OnGrid (g.place a) a ∨ ∀ z, Halfway (f.place a) z → (2 : Rat) ^ g.place a < 2 * |a - z|

namespace Binary

theorem roundMagnitude_bound (negative : Bool) (he : f.least ≤ e) :
    roundMagnitude (f := f) negative (f.bound * (2 : Rat) ^ e) =
      ofParts negative (f.bound / 2) (e + 1) := by
  obtain ⟨half, hhalf⟩ : ∃ half, f.bound = 2 * half := ⟨_, f.bound_eq_two_mul⟩
  have hpos := f.bound_pos
  have ha : 0 < f.bound * (2 : Rat) ^ e := mul_pos (by exact_mod_cast hpos) (two_zpow_pos e)
  have hplace : f.place (f.bound * (2 : Rat) ^ e) = e + 1 := by
    have hsucc : f.bound * (2 : Rat) ^ (e + 1) = 2 * (f.bound * (2 : Rat) ^ e) := by
      rw [zpow_add_one₀ two_ne_zero]
      ring
    exact place_eq ha (by omega) (by linarith) (Or.inr hsucc.le)
  have hvalue : (f.bound : Rat) * (2 : Rat) ^ e = (half : Int) * (2 : Rat) ^ (e + 1) := by
    rw [hhalf, zpow_add_one₀ two_ne_zero]
    push_cast
    ring
  have hnearest : nearestEven (f.bound * (2 : Rat) ^ e / (2 : Rat) ^ (e + 1)) = half := by
    rw [hvalue, div_intCast_mul_zpow, nearestEven_intCast]
  have hdiv : f.bound / 2 = half := by omega
  rw [roundMagnitude_eq negative hplace hnearest, if_neg (by omega), hdiv]

theorem roundMagnitude_congr (negative : Bool) (ha : 0 < a) (hb : 0 < b)
    (hle : b ≤ f.bound * (2 : Rat) ^ f.place a)
    (hfull : f.place a = f.least ∨ f.bound * (2 : Rat) ^ f.place a ≤ 2 * b)
    (hnearest : nearestEven (b / (2 : Rat) ^ f.place a) = nearestEven (a / (2 : Rat) ^ f.place a)) :
    roundMagnitude (f := f) negative b = roundMagnitude negative a := by
  have hleast := (f.place_spec ha).1
  obtain ⟨m, hm, -, -⟩ := exists_significand (f := f) ha
  rw [roundMagnitude_eq negative rfl hm]
  rcases hle.lt_or_eq with hlt | rfl
  · exact roundMagnitude_eq negative (place_eq hb hleast hlt hfull) (hnearest.trans hm)
  · have hbound : m = f.bound := by
      have hbound := nearestEven_intCast f.bound
      rw [← div_intCast_mul_zpow f.bound (f.place a)] at hbound
      exact_mod_cast hm.symm.trans (hnearest.symm.trans hbound)
    rw [roundMagnitude_bound negative hleast, if_pos hbound, hbound]

/-- Where it is clear of halfway points, rounding in the wide format first makes no difference. -/
theorem roundMagnitude_snap (negative : Bool) (ha : 0 < a) (hnormal : g.Normal a)
    (hplace : g.place a ≤ f.place a) (hclear : Clear f g a) :
    roundMagnitude (f := f) negative (snap (g.place a) a) = roundMagnitude negative a := by
  rcases hclear with hgrid | hclear
  · rw [snap_eq_self hgrid]
  obtain ⟨-, hlt, hfull⟩ := f.place_spec ha
  refine roundMagnitude_congr negative ha (hnormal.snap_pos ha) ?_ ?_ ?_
  · refine snap_le ?_ hlt.le
    exact OnGrid.mono ⟨f.bound, rfl⟩ hplace
  · refine hfull.imp_right fun hfull => ?_
    obtain ⟨z, hz, hbound⟩ := f.bound_half_onGrid (f.place a)
    have hle : z ≤ snap (g.place a) a := le_snap (hz.mono hplace) (by linarith)
    linarith
  · refine (nearestEven_div_congr fun z hz => ?_).symm
    have hnear := two_mul_abs_sub_snap_le (g.place a) a
    have hfar := hclear z hz
    linarith

theorem convert_roundMagnitude (negative : Bool) (hprec : 1 < g.precision) (ha : 0 < a)
    (hnormal : g.Normal a) (hplace : g.place a ≤ f.place a) (hclear : Clear f g a) :
    ((roundMagnitude negative a : Binary g).convert : Binary f) = roundMagnitude negative a := by
  obtain ⟨m, e, hround, hvalue, hrange, -⟩ := exists_ofParts (f := g) ha hprec
  rw [hround, ofParts_of_canonical negative (hrange.mpr hnormal.2)]
  change round negative (signed negative m e) = _
  have hsnap := hnormal.snap_pos ha
  rw [← roundMagnitude_snap negative ha hnormal hplace hclear,
    ← round_signed negative negative hsnap, ← hvalue]
  rfl

end Binary

namespace Clear

/-- The wide format holds every product. -/
theorem mul (hprec : 2 * f.precision < g.precision) (ha : 0 < a) (hnormal : g.Normal a)
    (hm : m < f.bound) (hn : n < f.bound)
    (hproduct : a = m * (2 : Rat) ^ c * (n * (2 : Rat) ^ d)) : Clear f g a := by
  refine Or.inl (hnormal.onGrid (c := c + d) ha ⟨m * n, ?_⟩ ?_)
  · rw [hproduct, zpow_add₀ two_ne_zero]
    push_cast
    ring
  · calc a < (2 : Rat) ^ (f.precision + c) * (2 : Rat) ^ (f.precision + d) := by
          rw [hproduct]
          exact mul_lt_mul'' (natCast_mul_lt hm c) (natCast_mul_lt hn d)
            (mul_nonneg (Nat.cast_nonneg m) (two_zpow_pos c).le)
            (mul_nonneg (Nat.cast_nonneg n) (two_zpow_pos d).le)
      _ = (2 : Rat) ^ (f.precision + c + (f.precision + d)) := (zpow_add₀ two_ne_zero _ _).symm
      _ ≤ (2 : Rat) ^ (g.precision + (c + d)) := zpow_le_zpow_right₀ one_le_two (by omega)

/-- A quotient that near to a halfway point is the halfway point. -/
theorem div (hprec : 2 * f.precision < g.precision) (ha : 0 < a) (hnormal : g.Normal a)
    (hm : m < f.bound) (hn : n < f.bound) (hpos : 0 < n)
    (hquotient : a * n = m * (2 : Rat) ^ c) : Clear f g a := by
  have hone : (1 : Rat) ≤ n := by exact_mod_cast hpos
  have hlt : a < (2 : Rat) ^ (f.precision + c) :=
    calc a ≤ a * n := le_mul_of_one_le_right ha.le hone
      _ < (2 : Rat) ^ (f.precision + c) := hquotient ▸ natCast_mul_lt hm c
  have hc := hnormal.add_place_le ha hlt
  have hplace := hnormal.add_place_le_add_place ha f
  refine or_iff_not_imp_right.mpr fun hnear => ?_
  push Not at hnear
  obtain ⟨z, hz, hnear⟩ := hnear
  have hgrid : OnGrid (f.precision + g.place a) (m * (2 : Rat) ^ c - n * z) := by
    have hdividend : OnGrid (f.precision + g.place a) (m * (2 : Rat) ^ c) :=
      OnGrid.mono ⟨m, rfl⟩ (by omega)
    have hmiddle : OnGrid (f.precision + g.place a) z := hz.onGrid (by omega)
    exact hdividend.sub (hmiddle.intCast_mul n)
  have hsmall : |m * (2 : Rat) ^ c - n * z| < (2 : Rat) ^ (f.precision + g.place a) :=
    calc |m * (2 : Rat) ^ c - n * z| = n * |a - z| := by
          rw [← hquotient, mul_comm a, ← mul_sub, abs_mul, Nat.abs_cast]
      _ ≤ n * (2 : Rat) ^ g.place a := by
          refine mul_le_mul_of_nonneg_left ?_ (Nat.cast_nonneg n)
          linarith [abs_nonneg (a - z)]
      _ < (2 : Rat) ^ (f.precision + g.place a) := natCast_mul_lt hn _
  have heq : n * (a - z) = 0 := by
    linarith [hgrid.eq_zero hsmall]
  obtain rfl : a = z := sub_eq_zero.mp ((mul_eq_zero.mp heq).resolve_left (by linarith))
  exact hz.onGrid (by omega)

theorem add_place_le_of_add {i : Int} (hprec : 2 * f.precision < g.precision) (ha : 0 < a)
    (hnormal : g.Normal a) (hi : |i| < f.bound) (hsum : a = i * (2 : Rat) ^ c + y)
    (hy : 2 * |y| < (2 : Rat) ^ (f.precision + g.place a)) :
    g.precision + g.place a ≤ f.precision + c := by
  by_contra hc
  obtain ⟨k, hk⟩ : ∃ k, g.precision + g.place a = f.precision + k + 1 :=
    ⟨g.precision + g.place a - f.precision - 1, by omega⟩
  have hfull := hnormal.full ha
  rw [bound_mul_two_zpow, hk, zpow_add_one₀ two_ne_zero, ← bound_mul_two_zpow] at hfull
  have hle : i * (2 : Rat) ^ c ≤ (f.bound - 1) * (2 : Rat) ^ k := by
    have hi : (i : Rat) ≤ f.bound - 1 := by
      have hi := (abs_lt.mp hi).2
      exact_mod_cast Int.le_sub_one_of_lt hi
    have hone : (1 : Rat) ≤ f.bound := by exact_mod_cast f.bound_pos
    have hpow : (2 : Rat) ^ c ≤ (2 : Rat) ^ k := zpow_le_zpow_right₀ one_le_two (by omega)
    exact mul_le_mul hi hpow (two_zpow_pos c).le (by linarith)
  have hk : (2 : Rat) ^ (f.precision + g.place a) ≤ (2 : Rat) ^ k :=
    zpow_le_zpow_right₀ one_le_two (by omega)
  linarith [le_abs_self y, two_zpow_pos k]

theorem place_eq_least_or_le (ha : 0 < a) (f g : Format) :
    f.place a = f.least ∨ f.precision + f.place a ≤ g.precision + g.place a := by
  obtain ⟨-, hlt, -⟩ := g.place_spec ha
  refine (f.place_spec ha).2.2.imp_right fun hfull => ?_
  rw [bound_mul_two_zpow] at hfull hlt
  have hlt : (2 : Rat) ^ (f.precision + f.place a) < (2 : Rat) ^ (g.precision + g.place a + 1) := by
    rw [zpow_add_one₀ two_ne_zero]
    linarith
  exact Int.lt_add_one_iff.mp ((zpow_lt_zpow_iff_right₀ one_lt_two).mp hlt)

theorem of_near (hprec : 2 * f.precision < g.precision) (ha : 0 < a) (hnormal : g.Normal a)
    (hx : OnGrid (f.place a) x) (hnear : 2 * |x - a| < (2 : Rat) ^ (f.precision + g.place a)) :
    Clear f g a := by
  refine Or.inr fun z hz => ?_
  by_contra hle
  have hplace := hnormal.add_place_le_add_place ha f
  have hfar := hz.le_two_mul_abs_sub hx
  have htriangle := abs_sub_le x a z
  have hpow : (2 : Rat) ^ g.place a ≤ (2 : Rat) ^ (f.precision + g.place a) :=
    zpow_le_zpow_right₀ one_le_two (by omega)
  have hpow' : (2 : Rat) ^ (f.precision + g.place a + 1) ≤ (2 : Rat) ^ f.place a :=
    zpow_le_zpow_right₀ one_le_two (by omega)
  rw [zpow_add_one₀ two_ne_zero] at hpow'
  linarith

/-- The wide format holds a sum, or its larger summand is on the grid of the sum and near it. -/
theorem add {i j : Int} (hprec : 2 * f.precision < g.precision) (ha : 0 < a)
    (hnormal : g.Normal a) (hi : |i| < f.bound) (hj : |j| < f.bound) (hdc : d ≤ c)
    (hc : f.least ≤ c) (hsum : a = i * (2 : Rat) ^ c + j * (2 : Rat) ^ d) : Clear f g a := by
  rcases le_or_gt (g.place a) d with hd | hd
  · have hgrid : OnGrid d a := hsum ▸ (OnGrid.mono ⟨i, rfl⟩ hdc).add ⟨j, rfl⟩
    exact Or.inl (hgrid.mono hd)
  have hsmall : 2 * |j * (2 : Rat) ^ d| < (2 : Rat) ^ (f.precision + g.place a) := by
    have hj : |(j : Rat)| < f.bound := by exact_mod_cast hj
    calc 2 * |j * (2 : Rat) ^ d| = |(j : Rat)| * (2 : Rat) ^ (d + 1) := by
          rw [abs_mul, abs_of_pos (two_zpow_pos d), zpow_add_one₀ two_ne_zero]
          ring
      _ < f.bound * (2 : Rat) ^ (d + 1) := mul_lt_mul_of_pos_right hj (two_zpow_pos _)
      _ ≤ (2 : Rat) ^ (f.precision + g.place a) := by
          rw [bound_mul_two_zpow]
          exact zpow_le_zpow_right₀ one_le_two (by omega)
  have hlarge := add_place_le_of_add hprec ha hnormal hi hsum hsmall
  have hplace : f.place a ≤ c := by
    rcases place_eq_least_or_le ha f g with hleast | hle
    · exact hleast.trans_le hc
    · omega
  refine of_near hprec ha hnormal (OnGrid.mono ⟨i, rfl⟩ hplace) ?_
  rwa [hsum, sub_add_cancel_left, abs_neg, ← hsum]

theorem abs_add {i j : Int} (hprec : 2 * f.precision < g.precision) (hi : |i| < f.bound)
    (hj : |j| < f.bound) (hc : f.least ≤ c) (hd : f.least ≤ d)
    (ha : 0 < |i * (2 : Rat) ^ c + j * (2 : Rat) ^ d|)
    (hnormal : g.Normal |i * (2 : Rat) ^ c + j * (2 : Rat) ^ d|) :
    Clear f g |i * (2 : Rat) ^ c + j * (2 : Rat) ^ d| := by
  wlog hdc : d ≤ c generalizing i j c d
  · rw [add_comm] at ha hnormal ⊢
    exact this hj hi hd hc ha hnormal (le_of_not_ge hdc)
  rcases abs_choice (i * (2 : Rat) ^ c + j * (2 : Rat) ^ d) with habs | habs
  · exact add hprec ha hnormal hi hj hdc hc habs
  · have hsum : |i * (2 : Rat) ^ c + j * (2 : Rat) ^ d| =
        (-i : Int) * (2 : Rat) ^ c + (-j : Int) * (2 : Rat) ^ d := by
      rw [habs]
      push_cast
      ring
    exact add hprec ha hnormal (by rwa [abs_neg]) (by rwa [abs_neg]) hdc hc hsum

end Clear

namespace Single

theorem place_double_le (ha : 0 < a) (hnormal : Format.double.Normal a) :
    Format.double.place a ≤ Format.single.place a := by
  have hle : 53 + Format.double.place a ≤ 24 + Format.single.place a :=
    hnormal.add_place_le_add_place ha Format.single
  omega

theorem convert_round (zeroSign : Bool) (hlow : x ≠ 0 → (2 : Rat) ^ (-300 : Int) ≤ |x|)
    (hhigh : |x| < (2 : Rat) ^ (300 : Int))
    (hclear : 0 < |x| → Format.double.Normal |x| → Clear .single .double |x|) :
    ((round zeroSign x : Double).convert : Single) = round zeroSign x := by
  by_cases hx : x = 0
  · subst hx
    rw [Binary.round_zero, Binary.round_zero, convert_zero]
  · have ha : 0 < |x| := abs_pos.mpr hx
    have hnormal := Format.normal_double (hlow hx) hhigh
    rw [round_eq_roundMagnitude zeroSign hx, round_eq_roundMagnitude zeroSign hx]
    exact convert_roundMagnitude _ (by decide) ha hnormal (place_double_le ha hnormal)
      (hclear ha hnormal)

section Operations

variable (zeroSign s t : Bool) (h : Format.single.Canonical m c) (h' : Format.single.Canonical n d)

include h h'

theorem convert_round_add :
    ((round zeroSign (signed s m c + signed t n d) : Double).convert : Single) =
      round zeroSign (signed s m c + signed t n d) := by
  have habs {m : Nat} (s : Bool) : |withSign s m| = m := by
    cases s <;> simp [withSign]
  refine convert_round zeroSign ?_ ?_ ?_
  · intro hx
    have hgrid : OnGrid (-149) (signed s m c + signed t n d) :=
      ((onGrid_signed s m c).mono h.2.1).add ((onGrid_signed t n d).mono h'.2.1)
    have hle : (2 : Rat) ^ (-149 : Int) ≤ |signed s m c + signed t n d| :=
      not_lt.mp (mt hgrid.eq_zero hx)
    exact (zpow_le_zpow_right₀ one_le_two (by decide)).trans hle
  · calc |signed s m c + signed t n d| ≤ m * (2 : Rat) ^ c + n * (2 : Rat) ^ d := by
          rw [← abs_signed s, ← abs_signed t]
          exact abs_add_le _ _
      _ < (2 : Rat) ^ (24 + 104 : Int) + (2 : Rat) ^ (24 + 104 : Int) :=
          add_lt_add (lt_two_zpow h) (lt_two_zpow h')
      _ = (2 : Rat) ^ (24 + 104 + 1 : Int) := by
          rw [zpow_add_one₀ two_ne_zero, mul_two]
      _ ≤ (2 : Rat) ^ (300 : Int) := zpow_le_zpow_right₀ one_le_two (by decide)
  · rw [signed_eq, signed_eq]
    exact Clear.abs_add (by decide) (by rw [habs]; exact_mod_cast h.1)
      (by rw [habs]; exact_mod_cast h'.1) h.2.1 h'.2.1

theorem convert_round_mul :
    ((round zeroSign (signed s m c * signed t n d) : Double).convert : Single) =
      round zeroSign (signed s m c * signed t n d) := by
  have habs : |signed s m c * signed t n d| = m * (2 : Rat) ^ c * (n * (2 : Rat) ^ d) := by
    rw [abs_mul, abs_signed, abs_signed]
  refine convert_round zeroSign ?_ ?_ ?_
  · intro hx
    obtain ⟨hm, hn⟩ := mul_ne_zero_iff.mp hx
    have hm := two_zpow_least_le h (Nat.pos_of_ne_zero (mt signed_eq_zero_iff.mpr hm))
    have hn := two_zpow_least_le h' (Nat.pos_of_ne_zero (mt signed_eq_zero_iff.mpr hn))
    calc (2 : Rat) ^ (-300 : Int) ≤ (2 : Rat) ^ (-149 + -149 : Int) :=
          zpow_le_zpow_right₀ one_le_two (by decide)
      _ = (2 : Rat) ^ (-149 : Int) * (2 : Rat) ^ (-149 : Int) := zpow_add₀ two_ne_zero _ _
      _ ≤ |signed s m c * signed t n d| :=
          habs ▸ mul_le_mul hm hn (two_zpow_pos _).le ((two_zpow_pos _).le.trans hm)
  · calc |signed s m c * signed t n d|
        < (2 : Rat) ^ (24 + 104 : Int) * (2 : Rat) ^ (24 + 104 : Int) :=
          habs ▸ mul_lt_mul'' (lt_two_zpow h) (lt_two_zpow h')
            (abs_signed s m c ▸ abs_nonneg _) (abs_signed t n d ▸ abs_nonneg _)
      _ = (2 : Rat) ^ (24 + 104 + (24 + 104) : Int) := (zpow_add₀ two_ne_zero _ _).symm
      _ ≤ (2 : Rat) ^ (300 : Int) := zpow_le_zpow_right₀ one_le_two (by decide)
  · intro ha hnormal
    exact Clear.mul (by decide) ha hnormal h.1 h'.1 habs

theorem convert_round_div :
    ((round zeroSign (signed s m c / signed t n d) : Double).convert : Single) =
      round zeroSign (signed s m c / signed t n d) := by
  have habs : |signed s m c / signed t n d| = m * (2 : Rat) ^ c / (n * (2 : Rat) ^ d) := by
    rw [abs_div, abs_signed, abs_signed]
  refine convert_round zeroSign ?_ ?_ ?_
  · intro hx
    obtain ⟨hm, hn⟩ := div_ne_zero_iff.mp hx
    have hm := two_zpow_least_le h (Nat.pos_of_ne_zero (mt signed_eq_zero_iff.mpr hm))
    have hpos : 0 < n * (2 : Rat) ^ d := abs_signed t n d ▸ abs_pos.mpr hn
    rw [habs, le_div_iff₀ hpos]
    calc (2 : Rat) ^ (-300 : Int) * (n * (2 : Rat) ^ d)
        ≤ (2 : Rat) ^ (-300 : Int) * (2 : Rat) ^ (24 + 104 : Int) :=
          mul_le_mul_of_nonneg_left (lt_two_zpow h').le (two_zpow_pos _).le
      _ = (2 : Rat) ^ (-300 + (24 + 104) : Int) := (zpow_add₀ two_ne_zero _ _).symm
      _ ≤ (2 : Rat) ^ (-149 : Int) := zpow_le_zpow_right₀ one_le_two (by decide)
      _ ≤ m * (2 : Rat) ^ c := hm
  · rcases Nat.eq_zero_or_pos n with rfl | hpos
    · rw [signed_eq_zero_iff.mpr rfl, div_zero, abs_zero]
      exact two_zpow_pos _
    · have hn := two_zpow_least_le h' hpos
      rw [habs, div_lt_iff₀ ((two_zpow_pos _).trans_le hn)]
      calc m * (2 : Rat) ^ c < (2 : Rat) ^ (24 + 104 : Int) := lt_two_zpow h
        _ ≤ (2 : Rat) ^ (300 + -149 : Int) := zpow_le_zpow_right₀ one_le_two (by decide)
        _ = (2 : Rat) ^ (300 : Int) * (2 : Rat) ^ (-149 : Int) := zpow_add₀ two_ne_zero _ _
        _ ≤ (2 : Rat) ^ (300 : Int) * (n * (2 : Rat) ^ d) :=
          mul_le_mul_of_nonneg_left hn (two_zpow_pos _).le
  · intro ha hnormal
    have hn : signed t n d ≠ 0 := (div_ne_zero_iff.mp (abs_pos.mp ha)).2
    have hpos : 0 < n := Nat.pos_of_ne_zero (mt signed_eq_zero_iff.mpr hn)
    refine Clear.div (c := c - d) (by decide) ha hnormal h.1 h'.1 hpos ?_
    have hcast : (n : Rat) ≠ 0 := by exact_mod_cast hpos.ne'
    rw [habs, zpow_sub₀ two_ne_zero]
    field_simp

end Operations

end Single

end Abacus
