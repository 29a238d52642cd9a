import Abacus.Proofs.Evaluation.Reading

/-! # The meaning of a list

A list is read as a sum of products of operands, without the `name =` it may begin
with, and means the value of that tree. Groups and variables mean what their own
lists mean one level deeper. Evaluation by climbing agrees with the meaning in
every value and in every fault, whatever the shape of the list.
-/

namespace Abacus.Evaluation

/-- What a list has to say after the `name =` that it may begin with. -/
def body (ts : List Token) : List Token :=
  match ts.take 2 with
  | [.identifier _, .assignment] => ts.drop 2
  | _ => ts

/-- The operators after an operand, each with the place to its right, and the tokens from the first
one on that stands where an operator is due. -/
def pairs : List Token → List (Operator × Option Token) × List Token
  | [.operator op] => ([(op, none)], [])
  | .operator op :: t :: ts => ((op, some t) :: (pairs ts).1, (pairs ts).2)
  | ts => ([], ts)

/-- A sum of products, from left to right. What precedes the current product is `total` of it. -/
def sumOfProducts (total : Tree → Tree) (product : Tree) :
    List (Operator × Option Token) → Tree
  | [] => total product
  | (.multiply, p) :: ps => sumOfProducts total (.node .multiply product (.leaf p)) ps
  | (.divide, p) :: ps => sumOfProducts total (.node .divide product (.leaf p)) ps
  | (.add, p) :: ps => sumOfProducts (.node .add (total product)) (.leaf p) ps
  | (.subtract, p) :: ps => sumOfProducts (.node .subtract (total product)) (.leaf p) ps

variable (lookup : String → Option (List Token))

/-- What stands at a place means; `deeper` is the meaning of lists one level below. -/
def placeMeaning (deeper : List String → List Token → Except Fault Number)
    (active : List String) : Option Token → Except Fault Number
  | some (.value n) => .ok n
  | some (.group ts) => deeper active ts
  | some (.identifier x) =>
    if x ∈ active then .error (.cyclic (active.drop (active.idxOf x) ++ [x]))
    else match lookup x with
      | none => .error (.undefined x)
      | some ts => deeper (active ++ [x]) ts
  | some (.operator op) => .error (.expectedValue (.operator op))
  | some .assignment => .error (.expectedValue .assignment)
  | none => .error .missingOperand

/--
The meaning of a list at some depth, while the definitions of the active names are evaluated. A
token that is left over is the fault, or, where it does not fit the stack, nesting too deep is.
-/
def meaning (fits : Token → Bool) (limit : Int) (depth : Nat) (active : List String)
    (ts : List Token) : Except Fault Number :=
  if limit < depth then .error (.nestingTooDeep limit)
  else match body ts with
    | [] => .error (if ts.isEmpty then .emptyExpression else .emptyDefinition)
    | t :: rest => do
      let n ← (sumOfProducts id (.leaf (some t)) (pairs rest).1).value
        (placeMeaning lookup (meaning fits limit (depth + 1)) active)
      match (pairs rest).2 with
      | [] => .ok n
      | t :: _ => .error (if fits t then .unexpectedToken t else .nestingTooDeep limit)
termination_by (limit + 1 - depth).toNat
decreasing_by omega

theorem definition_eq_body (ts : List Token) : Token.definition ts = body ts := by
  match ts with
  | [] | [.value _] | [.identifier _] | [.operator _] | [.assignment] | [.group _] => rfl
  | .value _ :: _ :: _ | .operator _ :: _ :: _ | .assignment :: _ :: _ | .group _ :: _ :: _ => rfl
  | .identifier _ :: u :: _ => cases u <;> rfl

theorem operations_eq_pairs (ts : List Token) : operations 0 ts = pairs ts := by
  fun_induction pairs ts with
  | case1 op => exact operations_operator_nil (Nat.zero_le _)
  | case2 op t ts ih => rw [operations_operator_cons (Nat.zero_le _), ih]
  | case3 ts hone hmore =>
    refine operations_eq_nil fun op rest h => ?_
    cases rest with
    | nil => exact absurd h (hone op)
    | cons t rest => exact absurd h (hmore op t rest)

theorem attachAll_eq_sumOfProducts {total : Tree → Tree} {product : Tree}
    (hproduct : product.Tight 2)
    (htighter : ∀ op p t, op.precedence = 2 → (total t).attach op p = total (t.attach op p))
    (hlooser : ∀ op p t, op.precedence = 1 → (total t).attach op p = .node op (total t) (.leaf p))
    (ps : List (Operator × Option Token)) :
    (total product).attachAll ps = sumOfProducts total product ps := by
  induction ps generalizing total product with
  | nil => rfl
  | cons x ps ih =>
    obtain ⟨op, p⟩ := x
    have hjoins (hop : op.precedence = 2) : (total product).attachAll ((op, p) :: ps) =
        sumOfProducts total (.node op product (.leaf p)) ps := by
      rw [Tree.attachAll_cons, htighter op p product hop, Tree.attach_of_tight (hop ▸ hproduct)]
      exact ih (Nat.le_of_eq hop.symm) htighter hlooser
    have hadds (hop : op.precedence = 1) : (total product).attachAll ((op, p) :: ps) =
        sumOfProducts (.node op (total product)) (.leaf p) ps := by
      rw [Tree.attachAll_cons, hlooser op p product hop]
      refine ih trivial (fun op' q t hop' => ?_) fun op' q t hop' => ?_
      · rw [Tree.attach, if_pos (by omega)]
      · rw [Tree.attach, if_neg (by omega)]
    cases op with
    | add => exact hadds rfl
    | subtract => exact hadds rfl
    | multiply => exact hjoins rfl
    | divide => exact hjoins rfl

/-- The tree that the precedences give is the sum of products. -/
theorem tree_eq_sumOfProducts (t : Token) (ts : List Token) :
    tree t ts = sumOfProducts id (.leaf (some t)) (pairs ts).1 := by
  have hleaf : (Tree.leaf (some t)).Tight 2 := trivial
  have htighter : ∀ op p (t : Tree), op.precedence = 2 →
      (id t).attach op p = id (t.attach op p) := fun _ _ _ _ => rfl
  have hlooser : ∀ op p (t : Tree), op.precedence = 1 →
      (id t).attach op p = .node op (id t) (.leaf p) := by
    intro op p t hop
    refine Tree.attach_of_tight ?_
    rw [hop]
    cases t with
    | leaf => trivial
    | node op' l r =>
      have hone : 1 ≤ op'.precedence := by cases op' <;> decide
      exact hone
  rw [tree, operations_eq_pairs]
  exact attachAll_eq_sumOfProducts hleaf htighter hlooser _

variable {lookup} {fits : Token → Bool} {limit : Int}

theorem mapError_apply (op : Operator) (a b : Number) :
    (apply op a b).mapError (.handled fits limit) = apply op a b := by
  unfold apply
  split <;> rfl

theorem mapError_value (place : Option Token → Except Fault Number) (t : Tree) :
    (t.value place).mapError (.handled fits limit) =
      t.value fun p => (place p).mapError (.handled fits limit) := by
  induction t with
  | leaf p => rfl
  | node op l r ihl ihr => simp only [Tree.value, mapError_bind, mapError_apply, ihl, ihr]

theorem drop_idxOf (x : String) (active : List String) :
    active.drop (active.idxOf x) = active.dropWhile (· ≠ x) := by
  induction active with
  | nil => rfl
  | cons y active ih =>
    by_cases h : y = x
    · simp [h]
    · have hne : (y == x) = false := beq_false_of_ne h
      rw [List.idxOf_cons, hne, cond_false, List.drop_succ_cons, ih,
        List.dropWhile_cons_of_pos (by simpa using h)]

theorem mapError_place (enter : List String → List Token → Except Fault Number)
    (active : List String) (p : Option Token) :
    (place (operand lookup enter active) p).mapError (.handled fits limit) =
      placeMeaning lookup (fun active ts => (enter active ts).mapError (.handled fits limit))
        active p := by
  match p with
  | some (.identifier x) =>
    by_cases hx : x ∈ active
    · simp only [placeMeaning, place, operand, drop_idxOf, hx, if_true]
      rfl
    · cases hts : lookup x <;> simp only [placeMeaning, place, operand, hx, hts, if_false]
      rfl
  | none | some (.value _) | some (.group _) | some (.operator _) | some .assignment => rfl

theorem solve_eq_meaning {depth room : Nat} (h : (limit + 1 - depth).toNat = room)
    (active : List String) (ts : List Token) :
    (solve lookup limit room active ts).mapError (.handled fits limit) =
      meaning lookup fits limit depth active ts := by
  induction room generalizing depth active ts with
  | zero =>
    rw [meaning, if_pos (by omega)]
    rfl
  | succ room ih =>
    have hdeeper : (fun active ts => (solve lookup limit room active ts).mapError
        (.handled fits limit)) = meaning lookup fits limit (depth + 1) :=
      funext fun active => funext fun ts => ih (by omega) active ts
    rw [meaning, if_neg (by omega), solve, ← definition_eq_body]
    cases hts : Token.definition ts with
    | nil =>
      simp only [sequence, hts]
      split <;> rfl
    | cons t rest =>
      rw [sequence_eq_value (fun n => rfl) hts, mapError_bind, mapError_value,
        funext (mapError_place _ _), hdeeper, tree_eq_sumOfProducts]
      have hleft : leftover rest = (pairs rest).2 := by rw [leftover, operations_eq_pairs]
      simp only [finish, hleft]
      congr 1
      funext n
      cases (pairs rest).2 <;> rfl

theorem evaluateOn_eq_evaluate (lookup : String → Option (List Token)) (limit : Int)
    (ts : List Token) : evaluateOn lookup (fun _ => true) limit ts = evaluate lookup limit ts := by
  unfold evaluateOn
  cases evaluate lookup limit ts with
  | ok n => rfl
  | error f => cases f <;> rfl

/--
Climbing precedences gives each list the value, or the first fault, that its tree has. On a stack
that every token fits, a token that is left over is always the fault.
-/
theorem evaluate_eq_meaning (lookup : String → Option (List Token)) (fits : Token → Bool)
    {limit : Int} (h : limit ≤ Depth.greatest) (ts : List Token) :
    evaluateOn lookup fits limit ts = meaning lookup fits limit 0 [] ts ∧
      evaluate lookup limit ts = meaning lookup (fun _ => true) limit 0 [] ts := by
  have hmeaning (fits : Token → Bool) :
      evaluateOn lookup fits limit ts = meaning lookup fits limit 0 [] ts := by
    rw [evaluateOn, evaluate, Depth.effective_of_le h]
    exact solve_eq_meaning (by simp) [] ts
  exact ⟨hmeaning fits, (evaluateOn_eq_evaluate lookup limit ts).symm.trans (hmeaning _)⟩

/-- With `a = 4`, the list `10 - 8 / a` means `8`. A group that does not fit the stack is nested
too deep where it is left over. -/
theorem evaluate_eq_meaning_product_first :
    let lookup : String → Option (List Token) := fun x =>
      if x = "a" then some [.identifier "a", .assignment, .value (.integer 4)] else none
    (100 : Int) ≤ Depth.greatest ∧
      meaning lookup (fun _ => true) 100 0 [] [.value (.integer 10), .operator .subtract,
        .value (.integer 8), .operator .divide, .identifier "a"] = .ok (.integer 8) ∧
      meaning lookup (fun _ => false) 100 0 [] [.value (.integer 1), .group [.identifier "a"]] =
        .error (.nestingTooDeep 100) := by
  intro lookup
  exact ⟨by decide, (evaluate_eq_meaning lookup (fun _ => true) (by decide) _).2.symm.trans rfl,
    (evaluate_eq_meaning lookup (fun _ => false) (by decide) _).1.symm.trans rfl⟩

end Abacus.Evaluation
