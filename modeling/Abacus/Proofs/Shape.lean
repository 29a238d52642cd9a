import Abacus.Proofs.Evaluation.Reading
import Abacus.Proofs.Line.Reading

/-! # The shape of lines

The tokens of a line alternate between operands and operators, in the line and
in every group, and `=` stands only after a leading name. The evaluation of such
tokens finds an operand at every place and leaves none of them over.
-/

namespace Abacus.Token

/-- Operands with operators between them. -/
inductive Alternates (operand : Token → Prop) : List Token → Prop where
  | last {t : Token} : operand t → Alternates operand [t]
  | more {t : Token} {op : Operator} {ts : List Token} : operand t → Alternates operand ts →
      Alternates operand (t :: .operator op :: ts)

def IsOperand (inner : List Token → Prop) : Token → Prop
  | value _ | identifier _ => True
  | group ts => inner ts
  | operator _ | assignment => False

/-- What may stand in a group, where groups may nest so deep. -/
def IsGroup : Nat → List Token → Prop
  | 0 => fun _ => False
  | depth + 1 => Alternates (IsOperand (IsGroup depth))

abbrev IsExpression (depth : Nat) : List Token → Prop :=
  Alternates (IsOperand (IsGroup depth))

def IsAssignment (depth : Nat) (x : String) (ts : List Token) : Prop :=
  ∃ us, ts = identifier x :: assignment :: us ∧ IsExpression depth us

variable {depth : Nat} {x : String} {ts : List Token}

theorem Alternates.ne_nil {operand : Token → Prop} (h : Alternates operand ts) : ts ≠ [] := by
  cases h <;> exact List.cons_ne_nil _ _

theorem IsExpression.target?_eq_none (h : IsExpression depth ts) : target? ts = none := by
  cases h with
  | @last t | @more t op ts => cases t <;> rfl

theorem IsExpression.definition_eq_self (h : IsExpression depth ts) : definition ts = ts := by
  cases h with
  | @last t | @more t op ts => cases t <;> rfl

theorem IsAssignment.target?_eq_some (h : IsAssignment depth x ts) : target? ts = some x := by
  obtain ⟨us, rfl, -⟩ := h
  rfl

theorem IsAssignment.isExpression_definition (h : IsAssignment depth x ts) :
    IsExpression depth (definition ts) := by
  obtain ⟨us, rfl, hus⟩ := h
  exact hus

theorem exists_isExpression_of_isGroup (h : IsGroup depth ts) : ∃ depth, IsExpression depth ts := by
  cases depth with
  | zero => exact h.elim
  | succ depth => exact ⟨depth, h⟩

end Abacus.Token

namespace Abacus.Line

open Token

variable {room : Nat} {ts : List Token} {cs rest : List Char}

theorem Operand.isOperand {inner : List Token → List Char → List Char → Prop}
    {shape : List Token → Prop} {t : Token} (h : Operand inner t cs rest)
    (hinner : ∀ {ts cs rest}, inner ts cs rest → shape ts) : IsOperand shape t := by
  cases h with
  | literal | name => trivial
  | group hts => exact hinner hts

theorem Alternation.alternates {operand : Token → List Char → List Char → Prop}
    {shape : Token → Prop} (h : Alternation operand ts cs rest)
    (hoperand : ∀ {t cs rest}, operand t cs rest → shape t) : Alternates shape ts := by
  induction h with
  | last _ ht _ => exact .last (hoperand ht)
  | more _ ht _ _ ih => exact .more (hoperand ht) ih

theorem Group.isGroup (h : Group room ts cs rest) : IsGroup room ts := by
  induction room generalizing ts cs rest with
  | zero => exact h.elim
  | succ room ih => exact Alternation.alternates h fun ht => ht.isOperand ih

theorem Expression.isExpression (h : Expression room ts cs rest) : IsExpression room ts :=
  Alternation.alternates h fun ht => ht.isOperand Group.isGroup

theorem Derives.shape (h : Derives room ts cs) :
    IsExpression room ts ∨ ∃ x, IsAssignment room x ts := by
  cases h with
  | expression hts => exact Or.inl hts.isExpression
  | assignment _ _ _ hus => exact Or.inr ⟨_, _, rfl, hus.isExpression⟩

theorem derives_of_parse {limit : Int} (hlimit : limit ≤ Depth.greatest) {source : String}
    (h : parse limit source = .ok ts) : Derives limit.toNat ts source.toList := by
  have hroom : (Depth.effective limit).toNat = limit.toNat := by rw [Depth.effective_of_le hlimit]
  exact derives_of_completes (completes_of_read hroom h)

theorem parse_of_derives {limit : Int} (hlimit : limit ≤ Depth.greatest) {source : String}
    (h : Derives limit.toNat ts source.toList) : parse limit source = .ok ts := by
  have hroom : (Depth.effective limit).toNat = limit.toNat := by rw [Depth.effective_of_le hlimit]
  exact Scan.read_of_derives (Nat.le_of_eq hroom.symm) h

theorem shape_of_parse {limit : Depth.Limit} {source : String} (h : parse limit source = .ok ts) :
    IsExpression limit.1.toNat ts ∨ ∃ x, IsAssignment limit.1.toNat x ts :=
  (derives_of_parse limit.2.2 h).shape

end Abacus.Line

namespace Abacus.Evaluation

open Token

/-- The faults of lists that are no alternations of operands and operators. -/
def Fault.IsStructural : Fault → Prop
  | emptyExpression | emptyDefinition | expectedValue _ | missingOperand | unexpectedToken _ => True
  | undefined _ | cyclic _ | nestingTooDeep _ | divisionByZero => False

theorem exists_tree_of_alternates {shape : Token → Prop} {ts : List Token}
    (h : Alternates shape ts) :
    ∃ t rest, ts = t :: rest ∧ leftover rest = [] ∧
      ∀ p ∈ (tree t rest).places, ∃ u, p = some u ∧ shape u := by
  simp only [tree, Tree.places_ofOperations, leftover]
  induction h with
  | @last t ht => exact ⟨t, [], rfl, rfl, by simpa [operations] using ht⟩
  | @more t op ts ht _ ih =>
    obtain ⟨u, rest, rfl, hrest, hplaces⟩ := ih
    refine ⟨t, _, rfl, ?_, ?_⟩
    · rw [operations_operator_cons (Nat.zero_le _)]
      exact hrest
    · rw [operations_operator_cons (Nat.zero_le _)]
      exact List.forall_mem_cons.mpr ⟨⟨t, rfl, ht⟩, hplaces⟩

theorem of_sequence_eq_error_of_alternates {operand : Token → Except Fault Number}
    (hvalue : ∀ n, operand (.value n) = .ok n) {shape : Token → Prop} {ts : List Token}
    (hts : Alternates shape (definition ts)) {f : Fault} (h : sequence operand ts = .error f) :
    f = .divisionByZero ∨ ∃ t, shape t ∧ operand t = .error f := by
  obtain ⟨t, rest, hdefinition, hrest, hplaces⟩ := exists_tree_of_alternates hts
  rw [sequence_eq_value hvalue hdefinition] at h
  rcases of_bind_eq_error h with h | ⟨n, -, h⟩
  · rcases Tree.value_eq_error h with hf | ⟨p, hp, h⟩
    · exact Or.inl hf
    · obtain ⟨u, rfl, hu⟩ := hplaces p hp
      exact Or.inr ⟨u, hu, h⟩
  · simp only [finish, hrest] at h
    cases h

variable {lookup : String → Option (List Token)}

/-- Alternations that use only definitions of alternations have no structural faults. -/
theorem not_isStructural_of_solve
    (hlookup : ∀ x ts, lookup x = some ts → ∃ depth, IsExpression depth (definition ts))
    {limit : Int} {room : Nat} {active : List String} {ts : List Token} {f : Fault}
    (hts : ∃ depth, IsExpression depth (definition ts))
    (h : solve lookup limit room active ts = .error f) : ¬ f.IsStructural := by
  induction room generalizing active ts with
  | zero =>
    cases h
    exact id
  | succ room ih =>
    obtain ⟨depth, hts⟩ := hts
    rcases of_sequence_eq_error_of_alternates (fun _ => rfl) hts h with rfl | ⟨t, ht, h⟩
    · exact id
    cases t with
    | value n => cases h
    | operator | assignment => exact ht.elim
    | group us =>
      obtain ⟨depth, hus⟩ := exists_isExpression_of_isGroup ht
      exact ih ⟨depth, hus.definition_eq_self.symm ▸ hus⟩ h
    | identifier x =>
      simp only [operand] at h
      split at h
      · cases h
        exact id
      split at h
      · cases h
        exact id
      · next us hus => exact ih (hlookup x us hus) h

end Abacus.Evaluation
