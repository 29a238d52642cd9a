import Abacus.Evaluation.Climb
import Abacus.Proofs.Sequencing

/-! # The loops of a climb

A climb stops at the first operator that binds less tightly than its precedence,
or at the end of the run. So one climb over the operators that bind tighter leaves
no more of them, and the loop ahead of an operator comes to that one climb.
-/

namespace Abacus.Evaluation

variable {operand : Token → Except Fault Number} {length least : Nat} {op : Operator}
  {left right value : Number} {ts rest : List Token}

theorem climbWithin_of_stopsBelow (h : StopsBelow least ts) :
    climbWithin operand length least left ts = .ok (left, ts) := by
  match length, ts with
  | 0, _ => simp [climbWithin]
  | length + 1, .operator op :: ts =>
    rw [climbWithin.eq_def]
    exact if_neg (Nat.not_le.mpr (h op ts rfl))
  | length + 1, [] | length + 1, .value _ :: _ | length + 1, .identifier _ :: _
  | length + 1, .assignment :: _ | length + 1, .group _ :: _ => simp [climbWithin]

theorem lookaheadWithin_of_stopsBelow (h : StopsBelow (op.precedence + 1) ts) :
    lookaheadWithin operand length op right ts = .ok (right, ts) := by
  match length, ts with
  | 0, _ => simp [lookaheadWithin]
  | length + 1, .operator next :: ts =>
    rw [lookaheadWithin.eq_def]
    exact if_neg (Nat.not_lt.mpr (Nat.le_of_lt_succ (h next ts rfl)))
  | length + 1, [] | length + 1, .value _ :: _ | length + 1, .identifier _ :: _
  | length + 1, .assignment :: _ | length + 1, .group _ :: _ => simp [lookaheadWithin]

theorem climbWithin_operator_nil (h : least ≤ op.precedence) :
    climbWithin operand (length + 1) least left [.operator op] = .error .missingOperand := by
  rw [climbWithin.eq_def]
  exact if_pos h

theorem climbWithin_operator_cons (h : least ≤ op.precedence) (t : Token) :
    climbWithin operand (length + 1) least left (.operator op :: t :: ts) = (do
      let right ← operand t
      let (right, rest) ← lookaheadWithin operand length op right ts
      let value ← apply op left right
      climbWithin operand length least value rest) := by
  rw [climbWithin.eq_def]
  exact if_pos h

theorem lookaheadWithin_operator {next : Operator} (h : op.precedence < next.precedence) :
    lookaheadWithin operand (length + 1) op right (.operator next :: ts) = (do
      let (right, rest) ← climbWithin operand length (op.precedence + 1) right (.operator next :: ts)
      lookaheadWithin operand length op right rest) := by
  rw [lookaheadWithin.eq_def]
  exact if_pos h

theorem exists_operator_of_not_stopsBelow (h : ¬ StopsBelow least ts) :
    ∃ op rest, ts = .operator op :: rest ∧ least ≤ op.precedence := by
  simpa [StopsBelow] using h

theorem length_le_within (length : Nat) :
    (∀ {least left ts value rest}, climbWithin operand length least left ts = .ok (value, rest) →
      rest.length ≤ ts.length) ∧
    ∀ {op right ts value rest}, lookaheadWithin operand length op right ts = .ok (value, rest) →
      rest.length ≤ ts.length := by
  induction length with
  | zero =>
    refine ⟨fun h => ?_, fun h => ?_⟩
    · cases h
      exact Nat.le_refl _
    · cases h
      exact Nat.le_refl _
  | succ length ih =>
    obtain ⟨ihclimb, ihahead⟩ := ih
    constructor
    · intro least left ts value rest h
      by_cases hstop : StopsBelow least ts
      · cases (climbWithin_of_stopsBelow hstop).symm.trans h
        exact Nat.le_refl _
      obtain ⟨op, ts, rfl, hop⟩ := exists_operator_of_not_stopsBelow hstop
      cases ts with
      | nil => cases (climbWithin_operator_nil hop).symm.trans h
      | cons t ts =>
        rw [climbWithin_operator_cons hop] at h
        obtain ⟨right, -, h⟩ := of_bind_eq_ok h
        obtain ⟨⟨right, rest'⟩, hahead, h⟩ := of_bind_eq_ok h
        obtain ⟨value', -, h⟩ := of_bind_eq_ok h
        have h₁ := ihahead hahead
        have h₂ := ihclimb h
        simp only [List.length_cons]
        omega
    · intro op right ts value rest h
      by_cases hstop : StopsBelow (op.precedence + 1) ts
      · cases (lookaheadWithin_of_stopsBelow hstop).symm.trans h
        exact Nat.le_refl _
      obtain ⟨next, ts, rfl, hnext⟩ := exists_operator_of_not_stopsBelow hstop
      rw [lookaheadWithin_operator hnext] at h
      obtain ⟨⟨right, rest'⟩, hclimb, h⟩ := of_bind_eq_ok h
      exact Nat.le_trans (ihahead h) (ihclimb hclimb)

theorem stopsBelow_of_climbWithin (hlength : ts.length ≤ length)
    (h : climbWithin operand length least left ts = .ok (value, rest)) : StopsBelow least rest := by
  induction length generalizing left ts with
  | zero =>
    obtain rfl := List.eq_nil_of_length_eq_zero (Nat.le_zero.mp hlength)
    cases h
    intro op rest h
    cases h
  | succ length ih =>
    by_cases hstop : StopsBelow least ts
    · cases (climbWithin_of_stopsBelow hstop).symm.trans h
      exact hstop
    obtain ⟨op, ts, rfl, hop⟩ := exists_operator_of_not_stopsBelow hstop
    cases ts with
    | nil => cases (climbWithin_operator_nil hop).symm.trans h
    | cons t ts =>
      rw [climbWithin_operator_cons hop] at h
      obtain ⟨right, -, h⟩ := of_bind_eq_ok h
      obtain ⟨⟨right, rest'⟩, hahead, h⟩ := of_bind_eq_ok h
      obtain ⟨value', -, h⟩ := of_bind_eq_ok h
      have hrest := (length_le_within length).2 hahead
      simp only [List.length_cons] at hlength
      exact ih (by omega) h

/-- The loop takes one turn at most: what it climbs over leaves nothing that binds tighter. -/
theorem lookaheadWithin_succ (h : ts.length ≤ length) :
    lookaheadWithin operand (length + 1) op right ts =
      climbWithin operand length (op.precedence + 1) right ts := by
  by_cases hstop : StopsBelow (op.precedence + 1) ts
  · rw [lookaheadWithin_of_stopsBelow hstop, climbWithin_of_stopsBelow hstop]
  obtain ⟨next, ts, rfl, hnext⟩ := exists_operator_of_not_stopsBelow hstop
  rw [lookaheadWithin_operator hnext]
  cases hclimb : climbWithin operand length (op.precedence + 1) right (.operator next :: ts) with
  | error f => rfl
  | ok v => exact lookaheadWithin_of_stopsBelow (stopsBelow_of_climbWithin h hclimb)

/-- Lengths past that of the list make no difference. -/
theorem climbWithin_eq_climb (h : ts.length ≤ length) :
    climbWithin operand length least left ts = climb operand least left ts := by
  suffices ∀ n m least left ts, ts.length ≤ n → ts.length ≤ m →
      climbWithin operand n least left ts = climbWithin operand m least left ts from
    this _ _ _ _ _ h (Nat.le_refl _)
  intro n
  induction n using Nat.strongRecOn with
  | ind n ih =>
    intro m least left ts hn hm
    by_cases hstop : StopsBelow least ts
    · rw [climbWithin_of_stopsBelow hstop, climbWithin_of_stopsBelow hstop]
    obtain ⟨op, ts, rfl, hop⟩ := exists_operator_of_not_stopsBelow hstop
    cases ts with
    | nil =>
      obtain ⟨n, rfl⟩ := Nat.exists_eq_add_of_le' hn
      obtain ⟨m, rfl⟩ := Nat.exists_eq_add_of_le' hm
      exact (climbWithin_operator_nil hop).trans (climbWithin_operator_nil hop).symm
    | cons t ts =>
      simp only [List.length_cons] at hn hm
      obtain ⟨n, rfl⟩ := Nat.exists_eq_add_of_le' (Nat.le_trans (Nat.le_add_left 2 _) hn)
      obtain ⟨m, rfl⟩ := Nat.exists_eq_add_of_le' (Nat.le_trans (Nat.le_add_left 2 _) hm)
      rw [climbWithin_operator_cons hop, climbWithin_operator_cons hop]
      congr 1
      funext right
      rw [lookaheadWithin_succ (by omega), lookaheadWithin_succ (by omega),
        ih n (by omega) m _ _ ts (by omega) (by omega)]
      cases hclimb : climbWithin operand m (op.precedence + 1) right ts with
      | error f => rfl
      | ok v =>
        obtain ⟨right, rest⟩ := v
        have hrest := (length_le_within m).1 hclimb
        simp only [ok_bind]
        congr 1
        funext value
        exact ih (n + 1) (by omega) (m + 1) _ _ _ (by omega) (by omega)

theorem climb_of_stopsBelow (h : StopsBelow least ts) :
    climb operand least left ts = .ok (left, ts) :=
  climbWithin_of_stopsBelow h

theorem climb_operator_nil (h : least ≤ op.precedence) :
    climb operand least left [.operator op] = .error .missingOperand :=
  climbWithin_operator_nil h

theorem climb_operator_cons (h : least ≤ op.precedence) (t : Token) :
    climb operand least left (.operator op :: t :: ts) = (do
      let right ← operand t
      let (right, rest) ← climb operand (op.precedence + 1) right ts
      let value ← apply op left right
      climb operand least value rest) := by
  rw [climb, List.length_cons, List.length_cons, climbWithin_operator_cons h]
  congr 1
  funext right
  rw [lookaheadWithin_succ (Nat.le_refl _), climbWithin_eq_climb (Nat.le_refl _)]
  cases hclimb : climb operand (op.precedence + 1) right ts with
  | error f => rfl
  | ok v =>
    obtain ⟨right, rest⟩ := v
    have hrest := (length_le_within ts.length).1 hclimb
    simp only [ok_bind]
    congr 1
    funext value
    exact climbWithin_eq_climb (by omega)

end Abacus.Evaluation
