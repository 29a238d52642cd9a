import Mathlib.Data.Int.ModEq
import Abacus.Proofs.Evaluation.Formula

/-! # Integers that wrap

Wrapping to 32 bits respects sums, differences and products. However many of its
steps have wrapped, the value of a formula of integers without quotients is the
value of the same formula in unbounded integers, wrapped once.
-/

namespace Abacus.Evaluation

namespace Formula

/-- The value in unbounded integers, where there is no float and no quotient. -/
def unbounded? : Formula → Option Int
  | number (.integer a) => some a.toInt
  | number (.float _) => none
  | nested f => f.unbounded?
  | node .add l r => do return (← l.unbounded?) + (← r.unbounded?)
  | node .subtract l r => do return (← l.unbounded?) - (← r.unbounded?)
  | node .multiply l r => do return (← l.unbounded?) * (← r.unbounded?)
  | node .divide _ _ => none

theorem exists_unbounded? {f : Formula} (hnumbers : ∀ n ∈ f.numbers, ∃ a, n = .integer a)
    (hoperators : .divide ∉ f.operators) : ∃ z, f.unbounded? = some z := by
  induction f with
  | number n =>
    obtain ⟨a, rfl⟩ := hnumbers n (List.mem_singleton_self n)
    exact ⟨a.toInt, rfl⟩
  | nested f ih => exact ih hnumbers hoperators
  | node op l r ihl ihr =>
    simp only [numbers, operators, List.mem_append, List.mem_cons, not_or] at hnumbers hoperators
    obtain ⟨hop, hl, hr⟩ := hoperators
    obtain ⟨x, hx⟩ := ihl (fun n hn => hnumbers n (Or.inl hn)) hl
    obtain ⟨y, hy⟩ := ihr (fun n hn => hnumbers n (Or.inr hn)) hr
    cases op with
    | divide => exact absurd rfl hop
    | add | subtract | multiply => simp [unbounded?, hx, hy]

/-- Each step wraps, and the outcome is as if only the last one had. -/
theorem value_of_unbounded? {f : Formula} {z : Int} (h : f.unbounded? = some z) :
    f.value = .ok (.integer (.ofInt z)) := by
  induction f generalizing z with
  | number n =>
    cases n with
    | float => cases h
    | integer a =>
      cases h
      rw [value, Int32.ofInt_toInt]
  | nested f ih => exact ih h
  | node op l r ihl ihr =>
    cases op with
    | divide => cases h
    | add | subtract | multiply =>
      simp only [unbounded?, bind, Option.bind_eq_some_iff, pure, Option.some.injEq] at h
      obtain ⟨x, hx, y, hy, rfl⟩ := h
      simp only [value, ihl hx, ihr hy, ok_bind, apply, Operator.combine?, Operator.onIntegers?_add,
        Operator.onIntegers?_subtract, Operator.onIntegers?_multiply, Option.map_some,
        Int32.ofInt_add, Int32.ofInt_sub, Int32.ofInt_mul]

end Formula

theorem eq_toInt_ofInt_iff (z k : Int) :
    k = (Int32.ofInt z).toInt ↔ -2 ^ 31 ≤ k ∧ k ≤ 2 ^ 31 - 1 ∧ k ≡ z [ZMOD 2 ^ 32] := by
  have hsize : (Int32.size : Int) = 2 ^ 32 := rfl
  rw [Int32.toInt_ofInt, Int.bmod_def, Int.ModEq, hsize]
  omega

/--
The value of integers under `+`, `-` and `*` is congruent to their value without wrapping, and it
is the only such integer that 32 bits can hold.
-/
theorem evaluate_modEq_unbounded {lookup : String → Option (List Token)} {limit : Int}
    {ts : List Token} {n : Number} (h : evaluate lookup limit ts = .ok n) :
    ∃ f, (∀ g, HasFormula lookup ts g ↔ g = f) ∧
      ((∀ m ∈ f.numbers, ∃ a, m = .integer a) → .divide ∉ f.operators →
        ∃ z a, f.unbounded? = some z ∧ n = .integer a ∧
          ∀ k, k = a.toInt ↔ -2 ^ 31 ≤ k ∧ k ≤ 2 ^ 31 - 1 ∧ k ≡ z [ZMOD 2 ^ 32]) := by
  obtain ⟨f, hf, hvalue, -⟩ := exists_hasFormula_of_solve h
  refine ⟨f, fun g => hf.eq_iff, fun hnumbers hoperators => ?_⟩
  obtain ⟨z, hz⟩ := Formula.exists_unbounded? hnumbers hoperators
  rw [Formula.value_of_unbounded? hz] at hvalue
  cases hvalue
  exact ⟨z, .ofInt z, hz, rfl, eq_toInt_ofInt_iff z⟩

theorem evaluate_modEq_unbounded_square :
    let lookup : String → Option (List Token) := fun x =>
      if x = "a" then some [.identifier "a", .assignment, .value (.integer 2147483647)] else none
    let ts : List Token := [.value (.integer (-2)), .operator .add, .identifier "a",
      .operator .multiply, .group [.identifier "a"]]
    let f : Formula := .node .add (.number (.integer (-2))) (.node .multiply
      (.nested (.number (.integer 2147483647)))
      (.nested (.nested (.number (.integer 2147483647)))))
    evaluate lookup 100 ts = .ok (.integer (-1)) ∧ HasFormula lookup ts f ∧
      f.unbounded? = some 4611686014132420607 ∧ -1 ≡ 4611686014132420607 [ZMOD 2 ^ 32] := by
  intro lookup ts f
  have hvalue : evaluate lookup 100 ts = .ok (.integer (-1)) := rfl
  have ha : Reads [.identifier "a", .assignment, .value (.integer 2147483647)]
      (.leaf (some (.value (.integer 2147483647)))) := ⟨_, _, rfl, rfl, rfl⟩
  have hformula : HasFormula lookup ts f :=
    ⟨_, ⟨_, _, rfl, rfl, rfl⟩, .node (.value _) (.node (.identifier rfl ha (.value _))
      (.group ⟨_, _, rfl, rfl, rfl⟩ (.identifier rfl ha (.value _))))⟩
  obtain ⟨g, hg, hwraps⟩ := evaluate_modEq_unbounded hvalue
  cases (hg f).mp hformula
  obtain ⟨z, a, hz, ha, hk⟩ := hwraps (by simp [f, Formula.numbers]) (by decide)
  cases ha
  cases hz
  exact ⟨hvalue, hformula, rfl, ((hk (-1)).mp rfl).2.2⟩

end Abacus.Evaluation
