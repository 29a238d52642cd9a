import Abacus.Operator
import Abacus.Proofs.Number.DoubleRounding

/-! # Arithmetic on floats

An operation on floats is done in double precision and narrowed. Its result is the one
that single precision arithmetic asks for: the exact result rounded once, and for the
infinities, what is not a number, and the division by zero the usual special values.
-/

namespace Abacus

open Binary

namespace Single

variable {a b : Single} {x y : Double}

/-- A double precision number of the same sign and value. -/
inductive Widens : Single → Double → Prop
  | nan : Widens .nan .nan
  | infinity (s : Bool) : Widens (.infinity s) (.infinity s)
  | finite {s : Bool} {m n : Nat} {c d : Int} (h : Format.single.Canonical m c)
      (h' : Format.double.Canonical n d) (hvalue : signed s n d = signed s m c) :
      Widens (.finite s m c h) (.finite s n d h')

theorem eq_zero_iff_of_signed_eq {s : Bool} {m n : Nat} {c d : Int}
    (h : signed s n d = signed s m c) : n = 0 ↔ m = 0 := by
  rw [← signed_eq_zero_iff, h, signed_eq_zero_iff]

theorem widens_convert_finite (s : Bool) {m : Nat} {c : Int} (h : Format.single.Canonical m c) :
    Widens (.finite s m c h) (Binary.finite s m c h : Single).convert := by
  change Widens _ (round s (signed s m c))
  rcases Nat.eq_zero_or_pos m with rfl | hm
  · have hzero : signed s 0 Format.double.least = signed s 0 c := by
      rw [signed_eq_zero_iff.mpr rfl, signed_eq_zero_iff.mpr rfl]
    rw [signed_eq_zero_iff.mpr rfl, Binary.round_zero]
    exact .finite h Format.double.canonical_zero hzero
  have hle := two_zpow_least_le h hm
  have ha : 0 < m * (2 : Rat) ^ c := (two_zpow_pos _).trans_le hle
  have hnormal : Format.double.Normal (m * (2 : Rat) ^ c) :=
    Format.normal_double ((zpow_le_zpow_right₀ one_le_two (by decide)).trans hle)
      ((lt_two_zpow h).trans_le (zpow_le_zpow_right₀ one_le_two (by decide)))
  have hgrid : OnGrid (Format.double.place (m * (2 : Rat) ^ c)) (m * (2 : Rat) ^ c) := by
    refine hnormal.onGrid ha ⟨m, rfl⟩ ((natCast_mul_lt h.1 c).trans_le ?_)
    exact zpow_le_zpow_right₀ one_le_two (Int.add_le_add_right (by decide) c)
  obtain ⟨n, d, hround, hvalue, hrange, -⟩ := exists_ofParts (f := .double) ha (by decide)
  have h' : Format.double.Canonical n d := hrange.mpr hnormal.2
  rw [snap_eq_self hgrid] at hvalue
  have hconvert : round s (signed s m c) = (.finite s n d h' : Double) := by
    rw [← ofParts_of_canonical, ← hround, ← round_signed s s ha]
    rfl
  rw [hconvert]
  refine .finite h h' ?_
  rw [signed, signed, hvalue]

theorem widens_convert (a : Single) : Widens a a.convert := by
  cases a with
  | nan => exact .nan
  | infinity s => exact .infinity s
  | finite s m c h => exact widens_convert_finite s h

namespace Widens

theorem neg (h : Widens a x) : Widens a.neg x.neg := by
  cases h with
  | nan => exact .nan
  | infinity s => exact .infinity !s
  | finite h h' hvalue =>
    refine .finite h h' ?_
    rw [signed_not, signed_not, hvalue]

theorem convert_add (ha : Widens a x) (hb : Widens b y) : (x.add y).convert = a.add b := by
  cases ha with
  | nan => rfl
  | infinity s =>
    cases hb with
    | nan | finite => rfl
    | infinity t => cases s <;> cases t <;> rfl
  | @finite s m _ _ _ h _ hm =>
    cases hb with
    | nan | infinity => rfl
    | @finite t n _ _ _ h' _ hn =>
      change (round (s && t) (signed s _ _ + signed t _ _)).convert = _
      rw [hm, hn, convert_round_add (s && t) s t h h']
      rfl

theorem convert_sub (ha : Widens a x) (hb : Widens b y) : (x.sub y).convert = a.sub b :=
  ha.convert_add hb.neg

theorem convert_mul (ha : Widens a x) (hb : Widens b y) : (x.mul y).convert = a.mul b := by
  cases ha with
  | nan => rfl
  | infinity s =>
    cases hb with
    | nan | infinity => rfl
    | finite _ _ hn =>
      simp only [mul, eq_zero_iff_of_signed_eq hn]
      split_ifs <;> rfl
  | @finite s m _ _ _ h _ hm =>
    cases hb with
    | nan => rfl
    | infinity t =>
      simp only [mul, eq_zero_iff_of_signed_eq hm]
      split_ifs <;> rfl
    | @finite t n _ _ _ h' _ hn =>
      change (round (s ^^ t) (signed s _ _ * signed t _ _)).convert = _
      rw [hm, hn, convert_round_mul (s ^^ t) s t h h']
      rfl

theorem convert_div (ha : Widens a x) (hb : Widens b y) : (x.div y).convert = a.div b := by
  cases ha with
  | nan => rfl
  | infinity s => cases hb <;> rfl
  | @finite s m _ _ _ h _ hm =>
    cases hb with
    | nan => rfl
    | infinity t => exact convert_zero (s ^^ t)
    | @finite t n _ _ _ h' _ hn =>
      simp only [div, eq_zero_iff_of_signed_eq hm, eq_zero_iff_of_signed_eq hn, hm, hn]
      split_ifs
      · rfl
      · rfl
      · exact convert_round_div (s ^^ t) s t h h'

end Widens

end Single

namespace Operator

/-- The exact result. Only a quotient by zero has none. -/
def exactResult? (op : Operator) (x y : Rat) : Option Rat :=
  match op with
  | add => some (x + y)
  | subtract => some (x - y)
  | multiply => some (x * y)
  | divide => if y = 0 then none else some (x / y)

def zeroSign (op : Operator) (s t : Bool) : Bool :=
  match op with
  | add => s && t
  | subtract => s && !t
  | multiply | divide => s ^^ t

/-- The result in single precision: the exact one, rounded once, or a special value. -/
def once (op : Operator) : Single → Single → Single
  | .nan, _ | _, .nan => .nan
  | .finite s m e _, .finite t n d _ =>
    match op.exactResult? (signed s m e) (signed t n d) with
    | some q => round (op.zeroSign s t) q
    | none => if m = 0 then .nan else .infinity (s ^^ t)
  | .infinity s, .infinity t =>
    match op with
    | add => if s = t then .infinity s else .nan
    | subtract => if s = t then .nan else .infinity s
    | multiply => .infinity (s ^^ t)
    | divide => .nan
  | .infinity s, .finite t n _ _ =>
    match op with
    | add | subtract => .infinity s
    | multiply => if n = 0 then .nan else .infinity (s ^^ t)
    | divide => .infinity (s ^^ t)
  | .finite s m _ _, .infinity t =>
    match op with
    | add => .infinity t
    | subtract => .infinity !t
    | multiply => if m = 0 then .nan else .infinity (s ^^ t)
    | divide => zero (s ^^ t)

theorem once_add (a b : Single) : once .add a b = a.add b := by
  cases a <;> cases b <;> rfl

theorem once_subtract (a b : Single) : once .subtract a b = a.sub b := by
  cases a with
  | nan => rfl
  | infinity s =>
    cases b with
    | nan | finite => rfl
    | infinity t => cases s <;> cases t <;> rfl
  | finite s m c h =>
    cases b with
    | nan | infinity => rfl
    | finite t n d h' =>
      change round (s && !t) (signed s m c - signed t n d) =
        round (s && !t) (signed s m c + signed (!t) n d)
      rw [signed_not, sub_eq_add_neg]

theorem once_multiply (a b : Single) : once .multiply a b = a.mul b := by
  cases a <;> cases b <;> rfl

theorem once_divide (a b : Single) : once .divide a b = a.div b := by
  cases a with
  | nan => rfl
  | infinity s => cases b <;> rfl
  | finite s m c h =>
    cases b with
    | nan | infinity => rfl
    | finite t n d h' =>
      simp only [once, div, exactResult?, signed_eq_zero_iff, zeroSign]
      split_ifs <;> rfl

/-- Passing through double precision makes no difference. -/
theorem onSingles_eq_once (op : Operator) (a b : Single) : op.onSingles a b = op.once a b := by
  have ha := Single.widens_convert a
  have hb := Single.widens_convert b
  rw [onSingles, Single.ofDouble_eq_convert]
  cases op with
  | add => exact (ha.convert_add hb).trans (once_add a b).symm
  | subtract => exact (ha.convert_sub hb).trans (once_subtract a b).symm
  | multiply => exact (ha.convert_mul hb).trans (once_multiply a b).symm
  | divide =>
    rw [onDoubles_divide]
    exact (ha.convert_div hb).trans (once_divide a b).symm

theorem convert_round_exact (op : Operator) (zeroSign s t : Bool) {m n : Nat} {e d : Int} {q : Rat}
    (h : Format.single.Canonical m e) (h' : Format.single.Canonical n d)
    (hq : op.exactResult? (signed s m e) (signed t n d) = some q) :
    ((round zeroSign q : Double).convert : Single) = round zeroSign q := by
  cases op with
  | add =>
    cases hq
    exact Single.convert_round_add zeroSign s t h h'
  | subtract =>
    cases hq
    rw [sub_eq_add_neg, ← signed_not]
    exact Single.convert_round_add zeroSign s (!t) h h'
  | multiply =>
    cases hq
    exact Single.convert_round_mul zeroSign s t h h'
  | divide =>
    rw [exactResult?] at hq
    split_ifs at hq
    cases hq
    exact Single.convert_round_div zeroSign s t h h'

/--
Arithmetic on floats is single precision arithmetic. Where there is an exact result it is rounded
once: rounding it to double precision first comes to the same.
-/
theorem rounds_once (op : Operator) (a b : Single) :
    op.combine? (.float a) (.float b) = some (.float (op.once a b)) ∧
      ∀ s m e t n d (h : Format.single.Canonical m e) (h' : Format.single.Canonical n d) q,
        a = .finite s m e h → b = .finite t n d h' →
        op.exactResult? (signed s m e) (signed t n d) = some q →
          Rounded (op.zeroSign s t) q (op.once a b) ∧
            ∀ zeroSign, ((round zeroSign q : Double).convert : Single) = round zeroSign q := by
  refine ⟨?_, ?_⟩
  · rw [← onSingles_eq_once]
    rfl
  rintro s m e t n d h h' q rfl rfl hq
  have honce : op.once (.finite s m e h) (.finite t n d h') = round (op.zeroSign s t) q := by
    rw [once, hq]
  refine ⟨?_, fun zeroSign => convert_round_exact op zeroSign s t h h' hq⟩
  rw [honce]
  exact rounded_round (by decide) _ _

theorem rounds_once_third :
    let one : Single := .finite false 8388608 (-23) (by decide)
    let three : Single := .finite false 12582912 (-22) (by decide)
    let third : Single := .finite false 11184811 (-25) (by decide)
    divide.combine? (.float one) (.float three) = some (.float third) ∧
      Rounded false (1 / 3) third := by
  intro one three third
  obtain ⟨hcombine, hfinite⟩ := rounds_once .divide one three
  have honce : once .divide one three = third := by decide +kernel
  have hq : exactResult? .divide (signed false 8388608 (-23)) (signed false 12582912 (-22)) =
      some (1 / 3) := by decide +kernel
  rw [honce] at hcombine hfinite
  exact ⟨hcombine, (hfinite _ _ _ _ _ _ _ _ _ rfl rfl hq).1⟩

end Operator

end Abacus
