import Abacus.Proofs.Evaluation.Comparison
import Abacus.Proofs.Shape

/-! # Definitions in parentheses

A variable stands for its definition in parentheses. Where an occurrence of a
name gives way to the group of what is stored for it, a list keeps its value and
its first fault. Only a cycle may be reported in other words, or further down.
-/

namespace Abacus.Token

/-- One occurrence of the name, at any depth, gives way to a group of these tokens. -/
inductive Parenthesizes (x : String) (us : List Token) : List Token → List Token → Prop where
  | here {ts : List Token} : Parenthesizes x us (.identifier x :: ts) (.group us :: ts)
  | inside {vs vs' ts : List Token} : Parenthesizes x us vs vs' →
      Parenthesizes x us (.group vs :: ts) (.group vs' :: ts)
  | later {t : Token} {ts ts' : List Token} : Parenthesizes x us ts ts' →
      Parenthesizes x us (t :: ts) (t :: ts')

/-- Alternations with the same operators, and related operands at the same places. -/
inductive AlternatesWith (Q : Token → Token → Prop) : List Token → List Token → Prop where
  | last {t t' : Token} : Q t t' → AlternatesWith Q [t] [t']
  | more {t t' : Token} {op : Operator} {ts ts' : List Token} : Q t t' → AlternatesWith Q ts ts' →
      AlternatesWith Q (t :: .operator op :: ts) (t' :: .operator op :: ts')

variable {x : String} {us ts ts' : List Token} {Q : Token → Token → Prop} {shape : Token → Prop}

theorem AlternatesWith.of_self (hQ : ∀ t, Q t t) (h : Alternates shape ts) :
    AlternatesWith Q ts ts := by
  induction h with
  | last => exact .last (hQ _)
  | more _ _ ih => exact .more (hQ _) ih

theorem AlternatesWith.of_parenthesizes (hQ : ∀ t, Q t t) (hname : Q (.identifier x) (.group us))
    (hgroup : ∀ vs vs', shape (.group vs) → Parenthesizes x us vs vs' → Q (.group vs) (.group vs'))
    (hts : Alternates shape ts) (h : Parenthesizes x us ts ts') : AlternatesWith Q ts ts' := by
  induction hts generalizing ts' with
  | last ht =>
    cases h with
    | here => exact .last hname
    | inside h => exact .last (hgroup _ _ ht h)
    | later h => cases h
  | more ht hts ih =>
    cases h with
    | here => exact .more hname (.of_self hQ hts)
    | inside h => exact .more (hgroup _ _ ht h) (.of_self hQ hts)
    | later h =>
      cases h with
      | later h => exact .more (hQ _) (ih h)

theorem AlternatesWith.definition_eq_self (h : AlternatesWith Q ts ts') :
    definition ts = ts ∧ definition ts' = ts' := by
  cases h with
  | @last t t' | @more t t' => cases t <;> cases t' <;> exact ⟨rfl, rfl⟩

end Abacus.Token

namespace Abacus.Evaluation

open Token

theorem exists_matches_of_alternatesWith (Q : Option Token → Option Token → Prop)
    {ts ts' : List Token} (h : AlternatesWith (fun t t' => Q (some t) (some t')) ts ts') :
    ∃ t rest t' rest', ts = t :: rest ∧ ts' = t' :: rest' ∧ leftover rest = [] ∧
      leftover rest' = [] ∧ (tree t rest).Matches Q (tree t' rest') := by
  suffices ∃ t rest t' rest', ts = t :: rest ∧ ts' = t' :: rest' ∧ leftover rest = [] ∧
      leftover rest' = [] ∧ Q (some t) (some t') ∧ List.Forall₂ (fun x y => x.1 = y.1 ∧ Q x.2 y.2)
        (operations 0 rest).1 (operations 0 rest').1 by
    obtain ⟨t, rest, t', rest', hts, hts', hrest, hrest', ht, hops⟩ := this
    exact ⟨t, rest, t', rest', hts, hts', hrest, hrest', .ofOperations ht hops⟩
  induction h with
  | @last t t' ht => exact ⟨t, [], t', [], rfl, rfl, rfl, rfl, ht, .nil⟩
  | @more t t' op ts ts' ht _ ih =>
    obtain ⟨u, rest, u', rest', rfl, rfl, hrest, hrest', hu, hops⟩ := ih
    unfold leftover at hrest hrest'
    refine ⟨t, _, t', _, rfl, rfl, ?_, ?_, ht, ?_⟩
    · rw [leftover, operations_operator_cons (Nat.zero_le _), hrest]
    · rw [leftover, operations_operator_cons (Nat.zero_le _), hrest']
    · rw [operations_operator_cons (Nat.zero_le _), operations_operator_cons (Nat.zero_le _)]
      exact .cons ⟨rfl, hu⟩ hops

theorem IsComparison.sequence_of_alternatesWith
    {R : Except Fault Number → Except Fault Number → Prop} (hR : IsComparison R)
    {operand operand' : Token → Except Fault Number} (hvalue : ∀ n, operand (.value n) = .ok n)
    (hvalue' : ∀ n, operand' (.value n) = .ok n) {ts ts' : List Token}
    (h : AlternatesWith (fun t t' => R (operand t) (operand' t')) ts ts') :
    R (Evaluation.sequence operand ts) (Evaluation.sequence operand' ts') := by
  obtain ⟨hdefinition, hdefinition'⟩ := h.definition_eq_self
  obtain ⟨t, rest, t', rest', rfl, rfl, hrest, hrest', hmatches⟩ :=
    exists_matches_of_alternatesWith (fun p p' => R (place operand p) (place operand' p')) h
  rw [sequence_eq_value hvalue hdefinition, sequence_eq_value hvalue' hdefinition']
  refine hR.bind (hR.value hmatches) fun n => ?_
  simp only [finish, hrest, hrest']
  exact hR.refl _

/-- Equal outcomes, or a cycle on the one side that the other meets too or is too deep to meet. -/
def SameUpToCycles (limit : Int) (r r' : Except Fault Number) : Prop :=
  r = r' ∨ FailsWith Fault.IsCyclic r ∧
    FailsWith (fun f => f.IsCyclic ∨ f = .nestingTooDeep limit) r'

theorem isComparison_sameUpToCycles (limit : Int) : IsComparison (SameUpToCycles limit) :=
  isComparison_eq_or fun h => h.imp .bind .bind

variable {lookup : String → Option (List Token)} {limit : Int} {x : String} {us : List Token}

theorem FailsWith.or_nestingTooDeep {r : Except Fault Number} (h : FailsWith Fault.IsCyclic r) :
    FailsWith (fun f => f.IsCyclic ∨ f = .nestingTooDeep limit) r := by
  obtain ⟨f, hf, hr⟩ := h
  exact ⟨f, Or.inl hf, hr⟩

/--
Where the definition of `x` meets a cycle while `x` is active, it meets one again, or is too deep,
with fewer levels and more active names.
-/
theorem failsWith_of_solve {room less : Nat} {active : List String}
    (h : FailsWith Fault.IsCyclic (solve lookup limit room [x] us)) (hless : less ≤ room)
    (hx : x ∈ active) : FailsWith (fun f => f.IsCyclic ∨ f = .nestingTooDeep limit)
      (solve lookup limit less active us) := by
  have hactive : [x] ⊆ active := by simpa using hx
  have hmore : AgreesUpTo Fault.IsCyclic (solve lookup limit less active us)
      (solve lookup limit less [x] us) := solve_agreesUpTo_isCyclic hactive us
  have hdeep : AgreesUpTo (· = .nestingTooDeep limit) (solve lookup limit less [x] us)
      (solve lookup limit room [x] us) := solve_agreesUpTo_nestingTooDeep hless [x] us
  rcases hmore with hmore | hmore
  · rw [hmore]
    rcases hdeep with hdeep | ⟨f, hf, hdeep⟩
    · exact hdeep ▸ h.or_nestingTooDeep
    · exact ⟨f, Or.inr hf, hdeep⟩
  · exact hmore.or_nestingTooDeep

theorem sameUpToCycles_cons (hus : lookup x = some us) {room : Nat}
    (h : FailsWith Fault.IsCyclic (solve lookup limit room [x] us)) {less : Nat}
    (hless : less ≤ room) (active : List String) (ts : List Token) :
    SameUpToCycles limit (solve lookup limit less (x :: active) ts)
      (solve lookup limit less active ts) := by
  induction less generalizing active ts with
  | zero => exact Or.inl rfl
  | succ less ih =>
    have ih := ih (Nat.le_of_succ_le hless)
    refine (isComparison_sameUpToCycles limit).solve_succ (fun vs _ => ih active vs) fun y _ => ?_
    by_cases hactive : y ∈ active
    · exact Or.inr ⟨failsWith_isCyclic (List.mem_cons_of_mem x hactive),
        (failsWith_isCyclic hactive).or_nestingTooDeep⟩
    by_cases hy : y = x
    · -- Here the runs part: `x` is active on the one side and entered again on the other.
      subst hy
      refine Or.inr ⟨failsWith_isCyclic List.mem_cons_self, ?_⟩
      rw [operand_of_not_mem hactive, hus]
      exact failsWith_of_solve h (Nat.le_of_succ_le hless) (by simp)
    · rw [operand_of_not_mem hactive, operand_of_not_mem (by simp [hy, hactive])]
      cases lookup y with
      | none => exact Or.inl rfl
      | some vs => exact ih (active ++ [y]) vs

theorem sameUpToCycles_singleton (hus : lookup x = some us) (room : Nat) :
    SameUpToCycles limit (solve lookup limit room [x] us) (solve lookup limit room [] us) := by
  rcases solve_agreesUpTo_isCyclic (List.nil_subset [x]) us with h | h
  · exact Or.inl h
  · exact sameUpToCycles_cons hus h (Nat.le_refl room) [] us

theorem sameUpToCycles_of_parenthesizes (hus : lookup x = some us) {ts ts' : List Token}
    (hts : ∃ depth, IsExpression depth ts) (h : Parenthesizes x us ts ts') (room : Nat) :
    SameUpToCycles limit (solve lookup limit room [] ts) (solve lookup limit room [] ts') := by
  induction room generalizing ts ts' with
  | zero => exact Or.inl rfl
  | succ room ih =>
    obtain ⟨depth, hts⟩ := hts
    refine (isComparison_sameUpToCycles limit).sequence_of_alternatesWith operand_value
      operand_value (.of_parenthesizes (fun _ => Or.inl rfl) ?_ (fun vs vs' hvs h => ?_) hts h)
    · rw [operand_of_not_mem List.not_mem_nil, hus]
      exact sameUpToCycles_singleton hus room
    · exact ih (exists_isExpression_of_isGroup hvs) h

/--
A name may give way to its definition in parentheses: no outcome changes but that of a cycle, which
is still a cycle or is too deep.
-/
theorem evaluate_of_parenthesizes (hus : lookup x = some us) {depth : Nat} {ts ts' : List Token}
    (hts : IsExpression depth ts) (h : Parenthesizes x us ts ts') :
    ((∀ chain, evaluate lookup limit ts ≠ .error (.cyclic chain)) →
      evaluate lookup limit ts' = evaluate lookup limit ts) ∧
    (∀ chain, evaluate lookup limit ts = .error (.cyclic chain) →
      (∃ chain', evaluate lookup limit ts' = .error (.cyclic chain')) ∨
        evaluate lookup limit ts' = .error (.nestingTooDeep limit)) ∧
    ∀ n, evaluate lookup limit ts = .ok n ↔ evaluate lookup limit ts' = .ok n := by
  have hsame : SameUpToCycles limit (evaluate lookup limit ts) (evaluate lookup limit ts') :=
    sameUpToCycles_of_parenthesizes hus ⟨depth, hts⟩ h _
  rcases hsame with hsame | ⟨⟨_, ⟨chain, rfl⟩, hcyclic⟩, f, hf, hfault⟩
  · rw [hsame]
    exact ⟨fun _ => rfl, fun chain h => Or.inl ⟨chain, h⟩, fun n => Iff.rfl⟩
  · rw [hcyclic, hfault]
    refine ⟨fun h => absurd rfl (h chain), fun _ _ => ?_, fun n => ⟨nofun, nofun⟩⟩
    rcases hf with ⟨chain', rfl⟩ | rfl
    · exact Or.inl ⟨chain', rfl⟩
    · exact Or.inr rfl

theorem evaluate_of_parenthesizes_sum :
    let us : List Token := [.identifier "a", .assignment, .value (.integer 1), .operator .add,
      .identifier "b"]
    let lookup : String → Option (List Token) := fun x =>
      match x with
      | "a" => some us
      | "b" => some [.value (.integer 2)]
      | _ => none
    let ts : List Token := [.value (.integer 4), .operator .multiply, .group [.identifier "a"]]
    let ts' : List Token := [.value (.integer 4), .operator .multiply, .group [.group us]]
    lookup "a" = some us ∧ IsExpression 1 ts ∧ Parenthesizes "a" us ts ts' ∧
      evaluate lookup 2 ts = .error (.nestingTooDeep 2) ∧
      evaluate lookup 2 ts' = .error (.nestingTooDeep 2) ∧
      evaluate lookup 3 ts' = .ok (.integer 12) := by
  intro us lookup ts ts'
  have hus : lookup "a" = some us := rfl
  have hts : IsExpression 1 ts := .more trivial (.last (.last trivial))
  have h : Parenthesizes "a" us ts ts' := .later (.later (.inside .here))
  have hdeep : evaluate lookup 2 ts' = evaluate lookup 2 ts :=
    (evaluate_of_parenthesizes hus hts h).1 fun _ => nofun
  have hvalue : evaluate lookup 3 ts' = .ok (.integer 12) :=
    ((evaluate_of_parenthesizes hus hts h).2.2 _).mp rfl
  exact ⟨hus, hts, h, rfl, hdeep.trans rfl, hvalue⟩

end Abacus.Evaluation
