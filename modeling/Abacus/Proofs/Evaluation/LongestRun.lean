import Mathlib.Data.List.Basic
import Abacus.Proofs.Shape

/-! # What climbing takes

Climbing takes the longest run of operators of at least the least precedence,
each with the operand after it, and stops there. So no operator is ever left over
at the end of a list, and what binds tighter than an operator is taken up to the
right of it at once.
-/

namespace Abacus.Evaluation

def runTokens (run : List (Operator × Token)) : List Token :=
  run.flatMap fun x => [.operator x.1, x.2]

/-- Of the runs of operators of at least this precedence that a list begins with, the longest. -/
structure IsLongestRun (least : Nat) (ts : List Token) (run : List (Operator × Token))
    (rest : List Token) : Prop where
  eq_append : ts = runTokens run ++ rest
  least_le : ∀ x ∈ run, least ≤ x.1.precedence
  longest : ∀ run' rest', ts = runTokens run' ++ rest' → (∀ x ∈ run', least ≤ x.1.precedence) →
    run' <+: run

def taken (run : List (Operator × Token)) : List (Operator × Option Token) :=
  run.map fun x => (x.1, some x.2)

/-- The number and the run after it read as one tree, which has this value. -/
def RunValue (operand : Token → Except Fault Number) (left : Number)
    (run : List (Operator × Token)) (value : Number) : Prop :=
  ∃ t : Tree, t.Binds ∧ t.first = some (.value left) ∧ t.operations = taken run ∧
    t.value (place operand) = .ok value

/--
Takes up the operators ahead that bind tighter than `op`: as long as the next one does, there is
one more climb. The number is that of the climbs.
-/
inductive Lookahead (operand : Token → Except Fault Number) (op : Operator) :
    Number → List Token → Nat → Except Fault (Number × List Token) → Prop where
  | stop {right : Number} {ts : List Token} : StopsBelow (op.precedence + 1) ts →
      Lookahead operand op right ts 0 (.ok (right, ts))
  | fault {right : Number} {ts : List Token} {f : Fault} : ¬ StopsBelow (op.precedence + 1) ts →
      climb operand (op.precedence + 1) right ts = .error f →
      Lookahead operand op right ts 1 (.error f)
  | again {right right' : Number} {ts rest : List Token} {n : Nat}
      {outcome : Except Fault (Number × List Token)} : ¬ StopsBelow (op.precedence + 1) ts →
      climb operand (op.precedence + 1) right ts = .ok (right', rest) →
      Lookahead operand op right' rest n outcome →
      Lookahead operand op right ts (n + 1) outcome

section

variable {least : Nat} {ts rest : List Token} {run : List (Operator × Token)}
  {left value : Number} {operand : Token → Except Fault Number}

@[simp] theorem runTokens_cons (x : Operator × Token) (run : List (Operator × Token)) :
    runTokens (x :: run) = .operator x.1 :: x.2 :: runTokens run := rfl

@[simp] theorem length_runTokens (run : List (Operator × Token)) :
    (runTokens run).length = 2 * run.length := by
  induction run with
  | nil => rfl
  | cons x run ih =>
    simp only [runTokens_cons, List.length_cons, ih]
    omega

theorem operations_runTokens_append (h : ∀ x ∈ run, least ≤ x.1.precedence) (rest : List Token) :
    operations least (runTokens run ++ rest) =
      (taken run ++ (operations least rest).1, (operations least rest).2) := by
  induction run with
  | nil => rfl
  | cons x run ih =>
    obtain ⟨hx, hrun⟩ := List.forall_mem_cons.mp h
    rw [runTokens_cons, List.cons_append, List.cons_append, operations_operator_cons hx, ih hrun]
    rfl

theorem taken_injective : Function.Injective taken :=
  List.map_injective_iff.mpr fun x y h => by
    cases x
    cases y
    cases h
    rfl

theorem exists_taken_eq (h : ∀ x ∈ (operations least ts).1, x.2 ≠ none) :
    ∃ run, (operations least ts).1 = taken run ∧ ts = runTokens run ++ (operations least ts).2 := by
  fun_induction operations least ts with
  | case1 op _ => exact absurd rfl (h _ (List.mem_singleton_self _))
  | case2 op _ t ts ih =>
    obtain ⟨run, htaken, hts⟩ := ih fun x hx => h x (List.mem_cons_of_mem _ hx)
    refine ⟨(op, t) :: run, ?_, ?_⟩
    · rw [htaken]
      rfl
    · rw [runTokens_cons, List.cons_append, List.cons_append, ← hts]
  | case3 => exact ⟨[], rfl, rfl⟩
  | case4 => exact ⟨[], rfl, rfl⟩

theorem isLongestRun_of_operations (h : (operations least ts).1 = taken run)
    (hts : ts = runTokens run ++ (operations least ts).2) :
    IsLongestRun least ts run (operations least ts).2 where
  eq_append := hts
  least_le x hx := by
    have hmem : (x.1, some x.2) ∈ (operations least ts).1 := h ▸ List.mem_map_of_mem hx
    exact precedence_of_mem_operations hmem
  longest run' rest' hts' hleast := by
    have hoperations := operations_runTokens_append hleast rest'
    rw [← hts'] at hoperations
    rw [hoperations] at h
    obtain ⟨before, after, rfl, hbefore, -⟩ := List.map_eq_append_iff.mp h.symm
    exact ⟨after, by rw [taken_injective hbefore]⟩

theorem operations_of_isLongestRun (h : IsLongestRun least ts run rest)
    (hrest : StopsBelow least rest) : operations least ts = (taken run, rest) := by
  rw [h.eq_append, operations_runTokens_append h.least_le, operations_eq_nil hrest, List.append_nil]

theorem runValue_iff : RunValue operand left run value ↔
    (Tree.ofOperations (some (.value left)) (taken run)).value (place operand) = .ok value := by
  constructor
  · rintro ⟨t, hbinds, hfirst, hoperations, hvalue⟩
    rwa [Tree.ofOperations_eq_iff.mpr ⟨hbinds, hfirst, hoperations⟩]
  · intro h
    obtain ⟨hbinds, hfirst, hoperations⟩ := Tree.ofOperations_eq_iff.mp rfl
    exact ⟨_, hbinds, hfirst, hoperations, h⟩

theorem climb_eq_ok_iff (hvalue : ∀ n, operand (.value n) = .ok n) :
    climb operand least left ts = .ok (value, rest) ↔
      ∃ run, IsLongestRun least ts run rest ∧ StopsBelow least rest ∧
        RunValue operand left run value := by
  rw [climb_eq_value hvalue]
  constructor
  · intro h
    obtain ⟨n, hn, h⟩ := of_bind_eq_ok h
    cases h
    have hplaces : ∀ x ∈ (operations least ts).1, x.2 ≠ none := by
      intro x hx hnone
      have hmem : none ∈
          (Tree.ofOperations (some (.value left)) (operations least ts).1).places := by
        rw [Tree.places_ofOperations]
        exact List.mem_cons_of_mem _ (hnone ▸ List.mem_map_of_mem hx)
      obtain ⟨m, hm⟩ := Tree.place_of_value_eq_ok hn none hmem
      cases hm
    obtain ⟨run, hrun, hts⟩ := exists_taken_eq hplaces
    exact ⟨run, isLongestRun_of_operations hrun hts, fun op more => operations_rest,
      runValue_iff.mpr (hrun ▸ hn)⟩
  · rintro ⟨run, hrun, hrest, hvalue⟩
    rw [operations_of_isLongestRun hrun hrest, runValue_iff.mp hvalue]
    rfl

theorem lookahead_iff_of_stopsBelow {op : Operator} {right : Number} {n : Nat}
    {outcome : Except Fault (Number × List Token)} (h : StopsBelow (op.precedence + 1) ts) :
    Lookahead operand op right ts n outcome ↔ n = 0 ∧ outcome = .ok (right, ts) := by
  constructor
  · intro hahead
    cases hahead with
    | stop => exact ⟨rfl, rfl⟩
    | fault hts => exact absurd h hts
    | again hts => exact absurd h hts
  · rintro ⟨rfl, rfl⟩
    exact .stop h

/-- One climb leaves nothing to take up, so the loop over the operators ahead ends after it. -/
theorem exists_lookahead_iff (hvalue : ∀ n, operand (.value n) = .ok n) (op : Operator)
    (right : Number) (ts : List Token) :
    ∃ n ≤ 1, ∀ m outcome, Lookahead operand op right ts m outcome ↔
      m = n ∧ outcome = climb operand (op.precedence + 1) right ts := by
  by_cases hts : StopsBelow (op.precedence + 1) ts
  · refine ⟨0, Nat.zero_le 1, fun m outcome => ?_⟩
    rw [lookahead_iff_of_stopsBelow hts, climb_of_stopsBelow hts]
  refine ⟨1, le_rfl, fun m outcome => ?_⟩
  cases hclimb : climb operand (op.precedence + 1) right ts with
  | error f =>
    constructor
    · intro h
      cases h with
      | stop hts' => exact absurd hts' hts
      | fault _ hf => exact ⟨rfl, hf.symm.trans hclimb⟩
      | again _ hok => cases hok.symm.trans hclimb
    · rintro ⟨rfl, rfl⟩
      exact .fault hts hclimb
  | ok v =>
    obtain ⟨right', rest⟩ := v
    obtain ⟨-, -, hrest, -⟩ := (climb_eq_ok_iff hvalue).mp hclimb
    constructor
    · intro h
      cases h with
      | stop hts' => exact absurd hts' hts
      | fault _ hf => cases hf.symm.trans hclimb
      | again _ hok h =>
        cases hok.symm.trans hclimb
        obtain ⟨rfl, rfl⟩ := (lookahead_iff_of_stopsBelow hrest).mp h
        exact ⟨rfl, rfl⟩
    · rintro ⟨rfl, rfl⟩
      exact .again hts hclimb (.stop hrest)

theorem ne_operator_of_sequence (hvalue : ∀ n, operand (.value n) = .ok n) {t : Token}
    (hoperand : ∀ u, operand u = .error (.unexpectedToken t) → ∀ op, t ≠ .operator op)
    (h : sequence operand ts = .error (.unexpectedToken t)) :
    ∀ op, t ≠ .operator op := by
  cases hts : Token.definition ts with
  | nil =>
    simp only [sequence, hts] at h
    split at h <;> cases h
  | cons first rest =>
    rw [sequence_eq_value hvalue hts] at h
    rcases of_bind_eq_error h with h | ⟨n, -, h⟩
    · rcases Tree.value_eq_error h with h | ⟨p, -, h⟩
      · cases h
      · cases p with
        | none => cases h
        | some u => exact hoperand u h
    · rintro op rfl
      unfold finish at h
      split at h
      · cases h
      · next hrest =>
        cases h
        exact Nat.not_lt_zero _ (operations_rest hrest)

end

variable {lookup : String → Option (List Token)} {active : List String}

theorem isOperand_of_runValue {enter : List String → List Token → Except Fault Number}
    {run : List (Operator × Token)} {left n : Number}
    (h : RunValue (operand lookup enter active) left run n) :
    ∀ x ∈ run, Token.IsOperand (fun _ => True) x.2 := by
  intro x hx
  have hmem : some x.2 ∈ (Tree.ofOperations (some (.value left)) (taken run)).places := by
    rw [Tree.places_ofOperations]
    exact List.mem_cons_of_mem _ (List.mem_map.mpr ⟨_, List.mem_map_of_mem hx, rfl⟩)
  obtain ⟨m, hm⟩ := Tree.place_of_value_eq_ok (runValue_iff.mp h) _ hmem
  cases ht : x.2 with
  | value | identifier | group => trivial
  | operator | assignment =>
    rw [ht] at hm
    cases hm

theorem ne_operator_of_solve {limit : Int} {room : Nat} {ts : List Token} {t : Token}
    (h : solve lookup limit room active ts = .error (.unexpectedToken t)) :
    ∀ op, t ≠ .operator op := by
  induction room generalizing active ts with
  | zero => cases h
  | succ room ih =>
    refine ne_operator_of_sequence operand_value (fun u hu => ?_) h
    cases u with
    | value | operator | assignment => cases hu
    | group us => exact ih hu
    | identifier x =>
      simp only [operand] at hu
      split at hu
      · cases hu
      split at hu
      · cases hu
      · exact ih hu

/--
A climb takes exactly the longest run of operators of at least its precedence, with the operands
after them, and comes to the value of the tree of that run. So an operator is never left over at
the end of a list, and the loop that completes the right side of an operator ends after at most one
climb.
-/
theorem climb_takes_longest_run (lookup : String → Option (List Token)) (limit : Int) (room : Nat)
    (active : List String) :
    let value := operand lookup (solve lookup limit room) active
    (∀ least left (stream : List Token) cursor n rest,
      climb value least left (stream.drop cursor) = .ok (n, rest) ↔
        ∃ run, IsLongestRun least (stream.drop cursor) run rest ∧
          rest = stream.drop (cursor + 2 * run.length) ∧ StopsBelow least rest ∧
          (∀ x ∈ run, Token.IsOperand (fun _ => True) x.2) ∧ RunValue value left run n) ∧
    (∀ ts t, evaluate lookup limit ts = .error (.unexpectedToken t) → ∀ op, t ≠ .operator op) ∧
    ∀ least left op t ts right, least ≤ op.precedence → value t = .ok right →
      ∃ n ≤ 1, ∃ ahead, (∀ m outcome, Lookahead value op right ts m outcome ↔
          m = n ∧ outcome = ahead) ∧
        climb value least left (.operator op :: t :: ts) =
          ahead >>= fun x => apply op left x.1 >>= fun v => climb value least v x.2 := by
  intro value
  refine ⟨fun least left stream cursor n rest => ?_, fun ts t => ne_operator_of_solve,
    fun least left op t ts right hleast hright => ?_⟩
  · rw [climb_eq_ok_iff operand_value]
    constructor
    · rintro ⟨run, hrun, hrest, hvalue⟩
      refine ⟨run, hrun, ?_, hrest, isOperand_of_runValue hvalue, hvalue⟩
      rw [← List.drop_drop, hrun.eq_append, ← length_runTokens, List.drop_left]
    · rintro ⟨run, hrun, -, hrest, -, hvalue⟩
      exact ⟨run, hrun, hrest, hvalue⟩
  · obtain ⟨n, hn, hlookahead⟩ := exists_lookahead_iff operand_value op right ts
    refine ⟨n, hn, _, hlookahead, ?_⟩
    rw [climb_operator_cons hleast, hright]
    rfl

/--
In `2 + 3 * 4 - 5`, the climb after `3` takes `* 4` before the sum is formed. In `1 2`, what is left
over is a value.
-/
theorem climb_takes_longest_run_product :
    let value := operand (fun _ => none) (solve (fun _ => none) 100 100) []
    let stream : List Token := [.value (.integer 2), .operator .add, .value (.integer 3),
      .operator .multiply, .value (.integer 4), .operator .subtract, .value (.integer 5)]
    (∃ run, IsLongestRun 2 (stream.drop 3) run [.operator .subtract, .value (.integer 5)] ∧
      RunValue value (.integer 3) run (.integer 12)) ∧
    evaluate (fun _ => none) 100 [.value (.integer 1), .value (.integer 2)] =
      .error (.unexpectedToken (.value (.integer 2))) ∧
    (∀ op, .value (.integer 2) ≠ Token.operator op) ∧
    ∃ n ≤ 1, ∃ ahead, Lookahead value .add (.integer 3) (stream.drop 3) n ahead ∧
      climb value 0 (.integer 2) (stream.drop 1) =
        ahead >>= fun x => apply .add (.integer 2) x.1 >>= fun v => climb value 0 v x.2 := by
  intro value stream
  have hunexpected : evaluate (fun _ => none) 100 [.value (.integer 1), .value (.integer 2)] =
      .error (.unexpectedToken (.value (.integer 2))) := rfl
  obtain ⟨hclimb, hleft, hahead⟩ := climb_takes_longest_run (fun _ => none) 100 100 []
  obtain ⟨run, hrun, -, -, -, hvalue⟩ := (hclimb 2 (.integer 3) stream 3 (.integer 12) _).mp rfl
  obtain ⟨n, hn, ahead, hiff, hsum⟩ :=
    hahead 0 (.integer 2) .add (.value (.integer 3)) (stream.drop 3) (.integer 3) (by decide) rfl
  exact ⟨⟨run, hrun, hvalue⟩, hunexpected, hleft _ _ hunexpected,
    n, hn, ahead, (hiff n ahead).mpr ⟨rfl, rfl⟩, hsum⟩

end Abacus.Evaluation
