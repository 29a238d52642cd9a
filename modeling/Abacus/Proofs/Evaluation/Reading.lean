import Abacus.Evaluation.Basic
import Abacus.Proofs.Evaluation.Tree

/-! # Reading tokens as a tree

Climbing takes the longest run of operators of at least the least precedence,
each with the place after it, and comes to the value of the tree of that run.
So a whole list comes to the value of its one tree, unless tokens are left over.
-/

namespace Abacus.Evaluation

/--
The longest run of operators of at least this precedence, each with the place after it, and the
tokens after the run. With the precedence `0`, every operator belongs to the run.
-/
def operations (least : Nat) : List Token → List (Operator × Option Token) × List Token
  | .operator op :: ts =>
    if least ≤ op.precedence then
      match ts with
      | [] => ([(op, none)], [])
      | t :: ts => ((op, some t) :: (operations least ts).1, (operations least ts).2)
    else ([], .operator op :: ts)
  | ts => ([], ts)

def place (operand : Token → Except Fault Number) : Option Token → Except Fault Number
  | none => .error .missingOperand
  | some t => operand t

theorem operations_operator_nil {least : Nat} {op : Operator} (h : least ≤ op.precedence) :
    operations least [.operator op] = ([(op, none)], []) := by
  simp only [operations, h, if_true]

theorem operations_operator_cons {least : Nat} {op : Operator} {t : Token} {ts : List Token}
    (h : least ≤ op.precedence) :
    operations least (.operator op :: t :: ts) =
      ((op, some t) :: (operations least ts).1, (operations least ts).2) := by
  simp only [operations, h, if_true]

theorem operations_eq_nil {least : Nat} {ts : List Token} (h : StopsBelow least ts) :
    operations least ts = ([], ts) := by
  match ts with
  | [] => rfl
  | .operator op :: rest =>
    unfold operations
    rw [if_neg (Nat.not_le.mpr (h op rest rfl))]
  | .value _ :: _ | .identifier _ :: _ | .assignment :: _ | .group _ :: _ => rfl

theorem precedence_of_mem_operations {least : Nat} {ts : List Token}
    {x : Operator × Option Token} (hx : x ∈ (operations least ts).1) :
    least ≤ x.1.precedence := by
  fun_induction operations least ts with
  | case1 op h =>
    cases List.mem_singleton.mp hx
    exact h
  | case2 op h t ts ih =>
    rcases List.mem_cons.mp hx with rfl | hx
    · exact h
    · exact ih hx
  | case3 => cases hx
  | case4 => cases hx

theorem eq_cons_of_mem_head_operations {least : Nat} {ts : List Token}
    {x : Operator × Option Token} (hx : x ∈ (operations least ts).1.head?) :
    ∃ rest, ts = .operator x.1 :: rest := by
  fun_induction operations least ts with
  | case1 op h =>
    cases hx
    exact ⟨_, rfl⟩
  | case2 op h t ts _ =>
    cases hx
    exact ⟨_, rfl⟩
  | case3 => cases hx
  | case4 => cases hx

theorem operations_rest {least : Nat} {ts : List Token} {op : Operator} {rest : List Token}
    (h : (operations least ts).2 = .operator op :: rest) : op.precedence < least := by
  fun_induction operations least ts with
  | case1 => cases h
  | case2 op' h' t ts ih => exact ih h
  | case3 op' ts h' =>
    cases h
    exact Nat.not_le.mp h'
  | case4 ts hts => exact absurd h (hts op rest)

theorem operations_eq_append {least most : Nat} (h : least ≤ most) (ts : List Token) :
    operations least ts =
      ((operations most ts).1 ++ (operations least (operations most ts).2).1,
        (operations least (operations most ts).2).2) := by
  fun_induction operations most ts with
  | case1 op hop => simp only [operations, Nat.le_trans h hop, if_true, List.append_nil]
  | case2 op hop t ts ih =>
    simp only [operations, Nat.le_trans h hop, if_true, List.cons_append]
    rw [ih]
  | case3 => rfl
  | case4 => rfl

theorem length_operations_le (least : Nat) (ts : List Token) :
    (operations least ts).2.length ≤ ts.length := by
  fun_induction operations least ts with
  | case1 => exact Nat.zero_le _
  | case2 op h t ts ih =>
    simp only [List.length_cons]
    omega
  | case3 => exact Nat.le_refl _
  | case4 => exact Nat.le_refl _

variable {operand : Token → Except Fault Number}

/-- The climb takes the longest run, and its result is the value of the run's tree. -/
theorem climb_eq_value (hvalue : ∀ n, operand (.value n) = .ok n) (least : Nat) (left : Number)
    (ts : List Token) :
    climb operand least left ts = (do
      let value ← (Tree.ofOperations (some (.value left)) (operations least ts).1).value
        (place operand)
      .ok (value, (operations least ts).2)) := by
  have hplace (n : Number) : place operand (some (.value n)) = .ok n := hvalue n
  induction hn : ts.length using Nat.strongRecOn generalizing least left ts with
  | ind n ih =>
    by_cases hstop : StopsBelow least ts
    · rw [climb_of_stopsBelow hstop, operations_eq_nil hstop]
      simp [Tree.ofOperations, Tree.value, hplace]
    · obtain ⟨op, rest, rfl, h⟩ := exists_operator_of_not_stopsBelow hstop
      cases rest with
      | nil =>
        rw [climb_operator_nil h, operations_operator_nil h]
        simp [Tree.ofOperations, Tree.attach, Tree.value, place, hvalue]
      | cons t ts =>
        have hshort := length_operations_le (op.precedence + 1) ts
        simp only [List.length_cons] at hn
        -- The climb for the right side has taken every operator that binds tighter than `op`.
        have hhead : ∀ x ∈ (operations least (operations (op.precedence + 1) ts).2).1.head?,
            x.1.precedence ≤ op.precedence := by
          intro x hx
          obtain ⟨rest, hrest⟩ := eq_cons_of_mem_head_operations hx
          exact Nat.le_of_lt_succ (operations_rest hrest)
        rw [climb_operator_cons h, operations_operator_cons h,
          operations_eq_append (Nat.le_succ_of_le h) ts,
          Tree.value_ofOperations_cons hplace (fun x hx => precedence_of_mem_operations hx) hhead,
          Tree.value_ofOperations hplace]
        simp only [bind_assoc]
        congr 1
        funext right
        rw [ih ts.length (by omega) _ _ ts rfl]
        simp only [bind_assoc, ok_bind]
        congr 1
        funext right
        congr 1
        funext value
        exact ih _ (by omega) _ _ _ rfl

def tree (t : Token) (ts : List Token) : Tree :=
  .ofOperations (some t) (operations 0 ts).1

/-- The tokens from the first one on that stands where an operator is due. -/
def leftover (ts : List Token) : List Token :=
  (operations 0 ts).2

/-- Tokens left over are a fault, but only of a list that has a value up to there. -/
def finish (ts : List Token) (n : Number) : Except Fault Number :=
  match leftover ts with
  | [] => .ok n
  | t :: _ => .error (.unexpectedToken t)

theorem sequence_eq_value (hvalue : ∀ n, operand (.value n) = .ok n) {ts : List Token} {t : Token}
    {rest : List Token} (h : Token.definition ts = t :: rest) :
    sequence operand ts = (tree t rest).value (place operand) >>= finish rest := by
  have hplace (n : Number) : place operand (some (.value n)) = .ok n := hvalue n
  simp only [sequence, h, climb_eq_value hvalue, tree, bind_assoc, ok_bind]
  rw [Tree.value_ofOperations hplace]
  simp only [bind_assoc]
  rfl

def operands (ts : List Token) : List Token :=
  match Token.definition ts with
  | [] => []
  | t :: rest => t :: (operations 0 rest).1.filterMap Prod.snd

theorem mem_of_mem_operations {least : Nat} {ts : List Token} {op : Operator} {t : Token}
    (h : (op, some t) ∈ (operations least ts).1) : t ∈ ts := by
  fun_induction operations least ts with
  | case1 op' _ => simp at h
  | case2 op' _ u ts ih =>
    rcases List.mem_cons.mp h with h | h
    · cases h
      simp
    · exact List.mem_cons_of_mem _ (List.mem_cons_of_mem _ (ih h))
  | case3 => cases h
  | case4 => cases h

theorem mem_of_mem_definition {ts : List Token} {t : Token} (h : t ∈ Token.definition ts) :
    t ∈ ts := by
  unfold Token.definition at h
  split at h
  · exact List.mem_cons_of_mem _ (List.mem_cons_of_mem _ h)
  · exact h

theorem mem_of_mem_operands {ts : List Token} {t : Token} (h : t ∈ operands ts) : t ∈ ts := by
  refine mem_of_mem_definition ?_
  unfold operands at h
  split at h
  · cases h
  · next first rest hts =>
    rw [hts]
    rcases List.mem_cons.mp h with rfl | h
    · exact List.mem_cons_self
    · obtain ⟨⟨op, p⟩, hp, rfl⟩ := List.mem_filterMap.mp h
      exact List.mem_cons_of_mem _ (mem_of_mem_operations hp)

/-- The faults of a list itself, which are none of its operands'. -/
def Fault.IsLocal : Fault → Prop
  | divisionByZero | emptyExpression | emptyDefinition | missingOperand | unexpectedToken _ => True
  | undefined _ | cyclic _ | nestingTooDeep _ | expectedValue _ => False

theorem some_mem_places_tree {ts rest : List Token} {t u : Token}
    (h : Token.definition ts = t :: rest) :
    some u ∈ (tree t rest).places ↔ u ∈ operands ts := by
  simp [tree, Tree.places_ofOperations, operands, h]

theorem operand_of_sequence_eq_ok (hvalue : ∀ n, operand (.value n) = .ok n) {ts : List Token}
    {n : Number} (h : sequence operand ts = .ok n) :
    ∀ t ∈ operands ts, ∃ m, operand t = .ok m := by
  intro u hu
  cases hts : Token.definition ts with
  | nil => simp [operands, hts] at hu
  | cons t rest =>
    rw [sequence_eq_value hvalue hts] at h
    obtain ⟨m, hm, -⟩ := of_bind_eq_ok h
    exact Tree.place_of_value_eq_ok hm _ ((some_mem_places_tree hts).mpr hu)

theorem of_sequence_eq_error (hvalue : ∀ n, operand (.value n) = .ok n) {ts : List Token}
    {f : Fault} (h : sequence operand ts = .error f) :
    f.IsLocal ∨ ∃ t ∈ operands ts, operand t = .error f := by
  cases hts : Token.definition ts with
  | nil =>
    simp only [sequence, hts] at h
    cases h
    left
    split <;> trivial
  | cons t rest =>
    rw [sequence_eq_value hvalue hts] at h
    rcases of_bind_eq_error h with h | ⟨n, -, h⟩
    · rcases Tree.value_eq_error h with rfl | ⟨p, hp, h⟩
      · exact Or.inl trivial
      · match p with
        | none =>
          cases h
          exact Or.inl trivial
        | some u => exact Or.inr ⟨u, (some_mem_places_tree hts).mp hp, h⟩
    · unfold finish at h
      split at h
      · cases h
      · cases h
        exact Or.inl trivial

end Abacus.Evaluation
