import Abacus.Proofs.Evaluation.Formula

/-! # Floats among the values

One float among the values that an expression reaches makes its result a float.
So a division by zero is one of integers by an integer: no float stands on either
side of it, however deep.
-/

namespace Abacus

namespace Number

def IsFloat : Number → Prop
  | integer _ => False
  | float _ => True

theorem isFloat_iff {n : Number} : n.IsFloat ↔ ∃ x, n = .float x := by
  cases n <;> simp [IsFloat]

end Number

namespace Evaluation

variable (lookup : String → Option (List Token))

/-- The list begins with what reads as this tree. -/
def Begins (ts : List Token) (t : Tree) : Prop :=
  ∃ first rest, Token.definition ts = first :: rest ∧ t = tree first rest

/-- A part of a tree, of one of its groups, or of the definition of one of its variables. -/
inductive Below (s : Tree) : Tree → Prop where
  | self : Below s s
  | left {op : Operator} {l r : Tree} : Below s l → Below s (.node op l r)
  | right {op : Operator} {l r : Tree} : Below s r → Below s (.node op l r)
  | group {ts : List Token} {t : Tree} : Begins ts t → Below s t →
      Below s (.leaf (some (.group ts)))
  | identifier {x : String} {ts : List Token} {t : Tree} : lookup x = some ts → Begins ts t →
      Below s t → Below s (.leaf (some (.identifier x)))

/-- A float is among the values that the tree reaches. -/
def HasFloat (t : Tree) : Prop :=
  ∃ x, Below lookup (.leaf (some (.value (.float x)))) t

def HasValue (t : Tree) (n : Number) : Prop :=
  ∃ f, Unfolds lookup t f ∧ f.value = .ok n

/-- All that is evaluated before this part has a value, so that its evaluation comes next. -/
inductive ComesTo (s : Tree) : Tree → Prop where
  | here : ComesTo s s
  | left {op : Operator} {l r : Tree} : ComesTo s l → ComesTo s (.node op l r)
  | right {op : Operator} {l r : Tree} {n : Number} : HasValue lookup l n → ComesTo s r →
      ComesTo s (.node op l r)
  | group {ts : List Token} {t : Tree} : Begins ts t → ComesTo s t →
      ComesTo s (.leaf (some (.group ts)))
  | identifier {x : String} {ts : List Token} {t : Tree} : lookup x = some ts → Begins ts t →
      ComesTo s t → ComesTo s (.leaf (some (.identifier x)))

variable {lookup} {ts : List Token} {t t' l r s : Tree} {op : Operator} {n : Number}

theorem Begins.unique (h : Begins ts t) (h' : Begins ts t') : t = t' := by
  obtain ⟨first, rest, hts, rfl⟩ := h
  obtain ⟨first', rest', hts', rfl⟩ := h'
  cases hts.symm.trans hts'
  rfl

theorem Reads.begins (h : Reads ts t) : Begins ts t := by
  obtain ⟨first, rest, hts, -, rfl⟩ := h
  exact ⟨first, rest, hts, rfl⟩

theorem below_of_comesTo (h : ComesTo lookup s t) : Below lookup s t := by
  induction h with
  | here => exact .self
  | left _ ih => exact .left ih
  | right _ _ ih => exact .right ih
  | group ht _ ih => exact .group ht ih
  | identifier hts ht _ ih => exact .identifier hts ht ih

theorem isFloat_of_apply {a b : Number} (h : apply op a b = .ok n) :
    n.IsFloat ↔ a.IsFloat ∨ b.IsFloat := by
  unfold apply at h
  split at h
  · next hcombine =>
    cases h
    cases a with
    | float x =>
      cases hcombine
      simp [Number.IsFloat]
    | integer a =>
      cases b with
      | float y =>
        cases hcombine
        simp [Number.IsFloat]
      | integer b =>
        obtain ⟨c, -, rfl⟩ := Option.map_eq_some_iff.mp hcombine
        simp [Number.IsFloat]
  · cases h

theorem Formula.isFloat_iff {f : Formula} (h : f.value = .ok n) :
    n.IsFloat ↔ ∃ x, .float x ∈ f.numbers := by
  induction f generalizing n with
  | number m =>
    cases h
    simp only [Number.isFloat_iff, numbers, List.mem_singleton, eq_comm]
  | nested f ih => exact ih h
  | node op l r ihl ihr =>
    obtain ⟨a, hl, h⟩ := of_bind_eq_ok h
    obtain ⟨b, hr, h⟩ := of_bind_eq_ok h
    simp only [isFloat_of_apply h, ihl hl, ihr hr, numbers, List.mem_append, exists_or]

theorem Unfolds.mem_numbers_iff {f : Formula} (h : Unfolds lookup t f) :
    n ∈ f.numbers ↔ Below lookup (.leaf (some (.value n))) t := by
  induction h with
  | value m =>
    constructor
    · intro hn
      cases List.mem_singleton.mp hn
      exact .self
    · intro hn
      cases hn
      exact List.mem_singleton_self n
  | group ht _ ih =>
    rw [Formula.numbers, ih]
    constructor
    · exact .group ht.begins
    · rintro (_ | _ | _ | ⟨ht', hn⟩)
      exact ht.begins.unique ht' ▸ hn
  | identifier hts ht _ ih =>
    rw [Formula.numbers, ih]
    constructor
    · exact .identifier hts ht.begins
    · rintro (_ | _ | _ | _ | ⟨hts', ht', hn⟩)
      cases hts.symm.trans hts'
      exact ht.begins.unique ht' ▸ hn
  | node _ _ ihl ihr =>
    rw [Formula.numbers, List.mem_append, ihl, ihr]
    constructor
    · rintro (hn | hn)
      · exact .left hn
      · exact .right hn
    · rintro (_ | hn | hn)
      · exact Or.inl hn
      · exact Or.inr hn

theorem HasValue.isFloat_iff (h : HasValue lookup t n) : n.IsFloat ↔ HasFloat lookup t := by
  obtain ⟨f, hf, hn⟩ := h
  simp only [Formula.isFloat_iff hn, hf.mem_numbers_iff, HasFloat]

theorem hasFloat_node (h : HasFloat lookup (.node op l r)) :
    HasFloat lookup l ∨ HasFloat lookup r := by
  obtain ⟨x, _ | h | h⟩ := h
  · exact Or.inl ⟨x, h⟩
  · exact Or.inr ⟨x, h⟩

/-- The evaluation comes to a quotient of integers, and the second of them is zero. -/
def DividesByZero (lookup : String → Option (List Token)) (t l r : Tree) : Prop :=
  ComesTo lookup (.node .divide l r) t ∧ (∃ a, HasValue lookup l (.integer a)) ∧
    HasValue lookup r (.integer 0)

theorem of_apply_eq_error {a b : Number} {f : Fault} (h : apply op a b = .error f) :
    op = .divide ∧ (∃ x, a = .integer x) ∧ b = .integer 0 := by
  unfold apply at h
  split at h
  · cases h
  · next hcombine =>
    cases a with
    | float x => cases hcombine
    | integer a =>
      cases b with
      | float y => cases hcombine
      | integer b =>
        have hnone : op.onIntegers? a b = none := Option.map_eq_none_iff.mp hcombine
        cases op with
        | add | subtract | multiply => cases hnone
        | divide =>
          by_cases hb : b = 0
          · exact ⟨rfl, ⟨a, rfl⟩, by rw [hb]⟩
          · rw [Operator.onIntegers?_divide, if_neg hb] at hnone
            cases hnone

section

variable {limit : Int} {room : Nat} {active : List String}

theorem hasValue_of_value
    (h : t.value (place (operand lookup (solve lookup limit room) active)) = .ok n) :
    HasValue lookup t n := by
  obtain ⟨f, hf, hn, -⟩ := exists_unfolds_of_value exists_hasFormula_of_solve h
  exact ⟨f, hf, hn⟩

theorem dividesByZero_of_value
    (hdeeper : ∀ {active ts}, solve lookup limit room active ts = .error .divisionByZero →
      ∃ t l r, Begins ts t ∧ DividesByZero lookup t l r)
    (h : t.value (place (operand lookup (solve lookup limit room) active)) =
      .error .divisionByZero) : ∃ l r, DividesByZero lookup t l r := by
  induction t with
  | leaf p =>
    match p with
    | none | some (.value _) | some (.operator _) | some .assignment => cases h
    | some (.group us) =>
      obtain ⟨t, l, r, ht, hcomes, hvalues⟩ := hdeeper h
      exact ⟨l, r, .group ht hcomes, hvalues⟩
    | some (.identifier x) =>
      by_cases hx : x ∈ active
      · rw [Tree.value, place, operand_of_mem hx] at h
        cases h
      rw [Tree.value, place, operand_of_not_mem hx] at h
      cases hus : lookup x with
      | none =>
        rw [hus] at h
        cases h
      | some us =>
        rw [hus] at h
        obtain ⟨t, l, r, ht, hcomes, hvalues⟩ := hdeeper h
        exact ⟨l, r, .identifier hus ht hcomes, hvalues⟩
  | node op l r ihl ihr =>
    rcases of_bind_eq_error h with hl | ⟨a, hl, h⟩
    · obtain ⟨l', r', hcomes, hvalues⟩ := ihl hl
      exact ⟨l', r', .left hcomes, hvalues⟩
    have hl := hasValue_of_value hl
    rcases of_bind_eq_error h with hr | ⟨b, hr, h⟩
    · obtain ⟨l', r', hcomes, hvalues⟩ := ihr hr
      exact ⟨l', r', .right hl hcomes, hvalues⟩
    obtain ⟨rfl, ⟨x, rfl⟩, rfl⟩ := of_apply_eq_error h
    exact ⟨l, r, .here, ⟨x, hl⟩, hasValue_of_value hr⟩

theorem dividesByZero_of_solve (h : solve lookup limit room active ts = .error .divisionByZero) :
    ∃ t l r, Begins ts t ∧ DividesByZero lookup t l r := by
  induction room generalizing active ts with
  | zero => cases h
  | succ room ih =>
    change sequence _ ts = _ at h
    cases hts : Token.definition ts with
    | nil =>
      simp only [sequence, hts] at h
      split at h <;> cases h
    | cons first rest =>
      rw [sequence_eq_value operand_value hts] at h
      rcases of_bind_eq_error h with h | ⟨n, -, h⟩
      · obtain ⟨l, r, hzero⟩ := dividesByZero_of_value ih h
        exact ⟨tree first rest, l, r, ⟨first, rest, hts, rfl⟩, hzero⟩
      · unfold finish at h
        split at h <;> cases h

end

theorem DividesByZero.not_hasFloat (h : DividesByZero lookup t l r) :
    ¬ HasFloat lookup l ∧ ¬ HasFloat lookup r := by
  obtain ⟨-, ⟨a, hl⟩, hr⟩ := h
  exact ⟨mt hl.isFloat_iff.mpr id, mt hr.isFloat_iff.mpr id⟩

/--
A value is a float just when a float is among the values reached. Where evaluation divides by zero,
it has come to a quotient whose two sides reach integers only, and whose right side is `0`. Where a
float stands below every quotient there is no such one.
-/
theorem evaluate_promotes (lookup : String → Option (List Token)) (limit : Int)
    (ts : List Token) :
    (∀ n, evaluate lookup limit ts = .ok n →
      ∃ t, Reads ts t ∧ (n.IsFloat ↔ HasFloat lookup t)) ∧
    (evaluate lookup limit ts = .error .divisionByZero →
      ∃ t l r, Begins ts t ∧ DividesByZero lookup t l r ∧
        ¬ HasFloat lookup l ∧ ¬ HasFloat lookup r) ∧
    ((∀ t l r, Begins ts t → Below lookup (.node .divide l r) t →
        HasFloat lookup (.node .divide l r)) →
      evaluate lookup limit ts ≠ .error .divisionByZero) := by
  refine ⟨fun n h => ?_, fun h => ?_, fun hfloat h => ?_⟩
  · obtain ⟨f, ⟨t, ht, hf⟩, hn, -⟩ := exists_hasFormula_of_solve h
    exact ⟨t, ht, HasValue.isFloat_iff ⟨f, hf, hn⟩⟩
  · obtain ⟨t, l, r, ht, hzero⟩ := dividesByZero_of_solve h
    exact ⟨t, l, r, ht, hzero, hzero.not_hasFloat⟩
  · obtain ⟨t, l, r, ht, hzero⟩ := dividesByZero_of_solve h
    obtain ⟨hl, hr⟩ := hzero.not_hasFloat
    rcases hasFloat_node (hfloat t l r ht (below_of_comesTo hzero.1)) with h | h
    · exact hl h
    · exact hr h

/-- With `a = 0.0`, the quotient `1 / a` is an infinity, but that in `2 + (1 / 0)` has no value. -/
theorem evaluate_promotes_of_zero :
    let lookup : String → Option (List Token) := fun x =>
      if x = "a" then some [.identifier "a", .assignment, .value (.float (.zero false))] else none
    let one : Tree := .leaf (some (.value (.integer 1)))
    let zero : Tree := .leaf (some (.value (.integer 0)))
    let ts : List Token := [.value (.integer 1), .operator .divide, .identifier "a"]
    let us : List Token := [.value (.integer 2), .operator .add,
      .group [.value (.integer 1), .operator .divide, .value (.integer 0)]]
    evaluate lookup 100 ts = .ok (.float (.infinity false)) ∧
      (∃ t, Reads ts t ∧ HasFloat lookup t) ∧
      evaluate lookup 100 ts ≠ .error .divisionByZero ∧
    evaluate lookup 100 us = .error .divisionByZero ∧
      ∃ t, Begins us t ∧ DividesByZero lookup t one zero := by
  intro lookup one zero ts us
  have hcombine : Operator.combine? .divide (.integer 1) (.float (.zero false)) =
      some (.float (.infinity false)) := by decide +kernel
  have hts : evaluate lookup 100 ts = .ok (.float (.infinity false)) := by
    change sequence (operand lookup (solve lookup 100 100) []) ts = _
    rw [sequence_of_reads operand_value ⟨_, _, rfl, rfl, rfl⟩]
    change apply .divide (.integer 1) (.float (.zero false)) = _
    rw [apply, hcombine]
  have hus : evaluate lookup 100 us = .error .divisionByZero := rfl
  obtain ⟨hvalue, -, hnone⟩ := evaluate_promotes lookup 100 ts
  obtain ⟨t, ht, hfloat⟩ := hvalue _ hts
  obtain ⟨-, hzero, -⟩ := evaluate_promotes lookup 100 us
  obtain ⟨u, l, r, hu, hdivides, -⟩ := hzero hus
  refine ⟨hts, ⟨t, ht, hfloat.mp trivial⟩, hnone ?_, hus, u, hu, ?_⟩
  · intro t' l r ht' hbelow
    cases ht'.unique ⟨_, _, rfl, rfl⟩
    have ha : HasFloat lookup (.leaf (some (.identifier "a"))) :=
      ⟨.zero false, .identifier rfl ⟨_, _, rfl, rfl⟩ .self⟩
    rcases hbelow with _ | hl | hr
    · obtain ⟨x, hx⟩ := ha
      exact ⟨x, .right hx⟩
    · cases hl
    · obtain _ | _ | _ | _ | ⟨hus, hu, h⟩ := hr
      cases hus
      cases hu.unique ⟨_, _, rfl, rfl⟩
      cases h
  · cases hu.unique ⟨_, _, rfl, rfl⟩
    obtain ⟨hcomes, hvalues⟩ := hdivides
    rcases hcomes with _ | hl | ⟨hleft, hr⟩
    · cases hl
    · obtain _ | _ | _ | ⟨hu, h⟩ := hr
      cases hu.unique ⟨_, _, rfl, rfl⟩
      rcases h with _ | h | ⟨-, h⟩
      · exact ⟨.right hleft (.group ⟨_, _, rfl, rfl⟩ .here), hvalues⟩
      · cases h
      · cases h

end Evaluation

end Abacus
