import Abacus.Proofs.Evaluation.Comparison
import Abacus.Proofs.Evaluation.Formula
import Abacus.Proofs.Evaluation.Nesting

/-! # What a limit decides

The limit of an evaluation decides only whether the evaluation is too deep. A
list with a value takes exactly as many levels as its formula is high. A line in
which no variable stands takes no more levels than its groups nest.
-/

namespace Abacus.Evaluation

open Token

variable {lookup : String → Option (List Token)}

theorem evaluate_agreesUpTo_nestingTooDeep {limit limit' : Int} (h : limit ≤ limit')
    (ts : List Token) : AgreesUpTo (· = .nestingTooDeep limit) (evaluate lookup limit ts)
      (evaluate lookup limit' ts) := by
  refine solve_agreesUpTo_nestingTooDeep ?_ [] ts
  simp only [Depth.effective]
  omega

/-- The list at the top is the first level, which no limit counts. -/
theorem evaluate_of_needs {height : Nat} {n : Number} {ts : List Token}
    (h : Needs (height + 1) n fun limit room => solve lookup limit room [] ts) {limit : Int}
    (hlimit : limit ≤ Depth.greatest) : evaluate lookup limit ts =
      if height ≤ limit then .ok n else .error (.nestingTooDeep limit) := by
  have hroom : height + 1 ≤ (Depth.effective limit + 1).toNat ↔ height ≤ limit := by
    rw [Depth.effective_of_le hlimit]
    omega
  have hvalue := h limit (Depth.effective limit + 1).toNat
  simp only [hroom] at hvalue
  exact hvalue

theorem nesting_le_of_parse {limit : Int} (hlimit : limit ≤ Depth.greatest) {source : String}
    {ts : List Token} (h : Line.parse limit source = .ok ts) : nesting ts ≤ limit.toNat := by
  rcases (Line.derives_of_parse hlimit h).shape with hts | ⟨x, hts⟩
  · exact hts.nesting_le
  · exact hts.nesting_le

theorem solve_ne_nestingTooDeep_of_not_occurs {limit limit' : Int} {room : Nat} {ts : List Token}
    (hts : ∀ x, ¬ Occurs x ts) (h : nesting ts < room) :
    solve lookup limit room [] ts ≠ .error (.nestingTooDeep limit') := by
  have hempty : solve lookup limit room [] ts = solve (Store.lookup {}) limit room [] ts :=
    solve_eq_of_reachable fun x ⟨y, hy, _⟩ => absurd hy (hts y)
  rw [hempty]
  exact solve_ne_nestingTooDeep h

theorem evaluate_ne_nestingTooDeep_of_parse {groups limit limit' : Int}
    (hgroups : groups ≤ Depth.greatest) {source : String} {ts : List Token}
    (hparse : Line.parse groups source = .ok ts) (hts : ∀ x, ¬ Occurs x ts)
    (hlimit : max groups 0 ≤ limit) :
    evaluate lookup limit ts ≠ .error (.nestingTooDeep limit') := by
  refine solve_ne_nestingTooDeep_of_not_occurs hts ?_
  have hnesting := nesting_le_of_parse hgroups hparse
  have hgreatest : (0 : Int) ≤ Depth.greatest := by decide
  simp only [Depth.effective]
  omega

/--
A lower limit keeps an outcome or finds the list too deep. A list that has a value under some limit
has it from the height of its formula on, and is too deep below. A line without variables is never
too deep where the limit is at least the one that its groups were read with, and not negative. The
limits of settings are positive, so for two of them this only says that one is at least the other.
-/
theorem evaluate_threshold (lookup : String → Option (List Token)) (ts : List Token) :
    (∀ limit limit', limit ≤ limit' →
      evaluate lookup limit ts = evaluate lookup limit' ts ∨
        evaluate lookup limit ts = .error (.nestingTooDeep limit)) ∧
    (∀ limit' n, evaluate lookup limit' ts = .ok n →
      ∃ f, (∀ g, HasFormula lookup ts g ↔ g = f) ∧ ∀ limit ≤ Depth.greatest,
        evaluate lookup limit ts =
          if f.height ≤ limit then .ok n else .error (.nestingTooDeep limit)) ∧
    ∀ groups source, groups ≤ Depth.greatest → Line.parse groups source = .ok ts →
      (∀ x, ¬ Occurs x ts) → ∀ limit, max groups 0 ≤ limit →
        ∀ limit', evaluate lookup limit ts ≠ .error (.nestingTooDeep limit') := by
  refine ⟨fun limit limit' h => ?_, fun limit' n h => ?_, ?_⟩
  · rcases evaluate_agreesUpTo_nestingTooDeep h ts with h | ⟨f, rfl, h⟩
    · exact Or.inl h
    · exact Or.inr h
  · obtain ⟨f, hf, -, hneeds⟩ := exists_hasFormula_of_solve h
    exact ⟨f, fun g => hf.eq_iff, fun limit hlimit => evaluate_of_needs hneeds hlimit⟩
  · intro groups source hgroups hparse hts limit hlimit limit'
    exact evaluate_ne_nestingTooDeep_of_parse hgroups hparse hts hlimit

/-- A group, a variable and the group in its definition take three levels. -/
theorem evaluate_threshold_of_definition :
    let lookup : String → Option (List Token) := fun x =>
      if x = "a" then some [.group [.value (.integer 1)]] else none
    let ts : List Token := [.value (.integer 2), .operator .add, .group [.identifier "a"]]
    let line : List Token := [.group [.value (.integer 1)]]
    (∀ limit ≤ Depth.greatest, evaluate lookup limit ts =
      if 3 ≤ limit then .ok (.integer 3) else .error (.nestingTooDeep limit)) ∧
    Line.parse 1 "(1)" = .ok line ∧
    ∀ limit', evaluate lookup 1 line ≠ .error (.nestingTooDeep limit') := by
  intro lookup ts line
  have hformula : HasFormula lookup ts (.node .add (.number (.integer 2))
      (.nested (.nested (.nested (.number (.integer 1)))))) :=
    ⟨_, ⟨_, _, rfl, rfl, rfl⟩, .node (.value _) (.group ⟨_, _, rfl, rfl, rfl⟩
      (.identifier rfl ⟨_, _, rfl, rfl, rfl⟩ (.group ⟨_, _, rfl, rfl, rfl⟩ (.value _))))⟩
  obtain ⟨-, hvalue, -⟩ := evaluate_threshold lookup ts
  obtain ⟨f, hf, hthreshold⟩ := hvalue 100 (.integer 3) rfl
  cases (hf _).mp hformula
  have hparse : Line.parse 1 "(1)" = .ok line := rfl
  obtain ⟨-, -, hline⟩ := evaluate_threshold lookup line
  have hnone : ∀ x, ¬ Occurs x line := by
    intro x hx
    cases hx with
    | here h => cases List.mem_singleton.mp h
    | inside h hx =>
      cases List.mem_singleton.mp h
      cases hx with
      | here h => cases List.mem_singleton.mp h
      | inside h _ => cases List.mem_singleton.mp h
  exact ⟨hthreshold, hparse, hline 1 _ (by decide) hparse hnone 1 (by decide)⟩

end Abacus.Evaluation
