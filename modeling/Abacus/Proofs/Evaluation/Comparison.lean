import Mathlib.Data.List.Forall2
import Abacus.Proofs.Evaluation.Dependency

/-! # Two evaluations side by side

Evaluations that differ in their limits, in the names being resolved or in some
operands are compared place by place. A relation between outcomes that survives
whatever both are followed by holds of whole lists once it holds of their places.
-/

namespace Abacus.Evaluation

/-- Equal outcomes are related, and related outcomes stay so when the same may follow on both. -/
structure IsComparison (R : Except Fault Number → Except Fault Number → Prop) : Prop where
  refl (r : Except Fault Number) : R r r
  bind {r r' : Except Fault Number} {g g' : Number → Except Fault Number} :
    R r r' → (∀ n, R (g n) (g' n)) → R (r >>= g) (r' >>= g')

namespace Tree

/-- Trees of the same operators, whose places are related. -/
inductive Matches (Q : Option Token → Option Token → Prop) : Tree → Tree → Prop where
  | leaf {p p' : Option Token} : Q p p' → Matches Q (leaf p) (leaf p')
  | node {op : Operator} {l l' r r' : Tree} : Matches Q l l' → Matches Q r r' →
      Matches Q (node op l r) (node op l' r')

variable {Q : Option Token → Option Token → Prop} {t t' : Tree} {p p' : Option Token}

theorem Matches.self (h : ∀ p ∈ t.places, Q p p) : Matches Q t t := by
  induction t with
  | leaf p => exact .leaf (h p (List.mem_singleton_self p))
  | node op l r ihl ihr =>
    rw [places_node] at h
    exact .node (ihl fun p hp => h p (List.mem_append_left _ hp))
      (ihr fun p hp => h p (List.mem_append_right _ hp))

theorem Matches.attach {op : Operator} (h : Matches Q t t') (hp : Q p p') :
    Matches Q (t.attach op p) (t'.attach op p') := by
  induction h with
  | leaf hq => exact .node (.leaf hq) (.leaf hp)
  | @node op' l l' r r' hl hr _ ih =>
    simp only [Tree.attach]
    split
    · exact .node hl ih
    · exact .node (.node hl hr) (.leaf hp)

theorem Matches.ofOperations {ps ps' : List (Operator × Option Token)} (hp : Q p p')
    (hps : List.Forall₂ (fun x y => x.1 = y.1 ∧ Q x.2 y.2) ps ps') :
    Matches Q (ofOperations p ps) (ofOperations p' ps') := by
  suffices ∀ {t t'}, Matches Q t t' → Matches Q (t.attachAll ps) (t'.attachAll ps') from
    this (.leaf hp)
  intro t t' h
  induction hps generalizing t t' with
  | nil => exact h
  | @cons x y ps ps' hxy _ ih =>
    obtain ⟨hop, hq⟩ := hxy
    rw [attachAll_cons, attachAll_cons, ← hop]
    exact ih (h.attach hq)

end Tree

namespace IsComparison

variable {R : Except Fault Number → Except Fault Number → Prop}

theorem value (hR : IsComparison R) {place place' : Option Token → Except Fault Number}
    {t t' : Tree} (h : t.Matches (fun p p' => R (place p) (place' p')) t') :
    R (t.value place) (t'.value place') := by
  induction h with
  | leaf hp => exact hp
  | node _ _ ihl ihr => exact hR.bind ihl fun _ => hR.bind ihr fun _ => hR.refl _

theorem sequence (hR : IsComparison R) {operand operand' : Token → Except Fault Number}
    (hvalue : ∀ n, operand (.value n) = .ok n) (hvalue' : ∀ n, operand' (.value n) = .ok n)
    {ts : List Token} (h : ∀ t ∈ operands ts, R (operand t) (operand' t)) :
    R (Evaluation.sequence operand ts) (Evaluation.sequence operand' ts) := by
  cases hts : Token.definition ts with
  | nil =>
    simp only [Evaluation.sequence, hts]
    exact hR.refl _
  | cons t rest =>
    rw [sequence_eq_value hvalue hts, sequence_eq_value hvalue' hts]
    refine hR.bind (hR.value (.self fun p hp => ?_)) fun n => hR.refl _
    cases p with
    | none => exact hR.refl _
    | some u => exact h u ((some_mem_places_tree hts).mp hp)

variable {lookup lookup' : String → Option (List Token)} {limit limit' : Int} {room room' : Nat}
  {active active' : List String} {ts : List Token}

theorem solve_succ (hR : IsComparison R)
    (hgroup : ∀ us, .group us ∈ operands ts →
      R (solve lookup limit room active us) (solve lookup' limit' room' active' us))
    (hname : ∀ x, .identifier x ∈ operands ts →
      R (operand lookup (solve lookup limit room) active (.identifier x))
        (operand lookup' (solve lookup' limit' room') active' (.identifier x))) :
    R (solve lookup limit (room + 1) active ts) (solve lookup' limit' (room' + 1) active' ts) := by
  refine hR.sequence operand_value operand_value fun t ht => ?_
  cases t with
  | value | operator | assignment => exact hR.refl _
  | group us => exact hgroup us ht
  | identifier x => exact hname x ht

end IsComparison

def FailsWith (kind : Fault → Prop) (r : Except Fault Number) : Prop :=
  ∃ f, kind f ∧ r = .error f

/-- The first outcome is the second one, unless it is a fault of this kind. -/
def AgreesUpTo (kind : Fault → Prop) (r r' : Except Fault Number) : Prop :=
  r = r' ∨ FailsWith kind r

theorem FailsWith.bind {kind : Fault → Prop} {r : Except Fault Number}
    {g : Number → Except Fault Number} (h : FailsWith kind r) : FailsWith kind (r >>= g) := by
  obtain ⟨f, hf, rfl⟩ := h
  exact ⟨f, hf, rfl⟩

theorem isComparison_eq_or {P : Except Fault Number → Except Fault Number → Prop}
    (hP : ∀ {r r' g g'}, P r r' → P (r >>= g) (r' >>= g')) :
    IsComparison fun r r' => r = r' ∨ P r r' where
  refl _ := Or.inl rfl
  bind {r r' g g'} h hg := by
    rcases h with rfl | h
    · cases r with
      | error f => exact Or.inl rfl
      | ok n => exact hg n
    · exact Or.inr (hP h)

theorem isComparison_agreesUpTo (kind : Fault → Prop) : IsComparison (AgreesUpTo kind) :=
  isComparison_eq_or FailsWith.bind

variable {lookup lookup' : String → Option (List Token)} {limit limit' : Int} {room room' : Nat}
  {active active' : List String}

/-- Fewer levels change an outcome only into the fault that there are too few. -/
theorem solve_agreesUpTo_nestingTooDeep (h : room ≤ room') (active : List String)
    (ts : List Token) : AgreesUpTo (· = .nestingTooDeep limit) (solve lookup limit room active ts)
      (solve lookup limit' room' active ts) := by
  induction room generalizing room' active ts with
  | zero => exact Or.inr ⟨_, rfl, rfl⟩
  | succ room ih =>
    obtain ⟨room', rfl⟩ : ∃ k, room' = k + 1 := ⟨room' - 1, by omega⟩
    have ih := ih (Nat.le_of_succ_le_succ h)
    refine (isComparison_agreesUpTo _).solve_succ (fun us _ => ih active us) fun x _ => ?_
    by_cases hx : x ∈ active
    · rw [operand_of_mem hx, operand_of_mem hx]
      exact Or.inl rfl
    · rw [operand_of_not_mem hx, operand_of_not_mem hx]
      cases lookup x with
      | none => exact Or.inl rfl
      | some us => exact ih _ us

def Fault.IsCyclic (f : Fault) : Prop :=
  ∃ chain, f = .cyclic chain

theorem failsWith_isCyclic {enter : List String → List Token → Except Fault Number} {x : String}
    (h : x ∈ active) :
    FailsWith Fault.IsCyclic (operand lookup enter active (.identifier x)) := by
  rw [operand_of_mem h]
  exact ⟨_, ⟨_, rfl⟩, rfl⟩

/-- More active names change an outcome only into a cycle. -/
theorem solve_agreesUpTo_isCyclic (h : active ⊆ active') (ts : List Token) :
    AgreesUpTo Fault.IsCyclic (solve lookup limit room active' ts)
      (solve lookup limit room active ts) := by
  induction room generalizing active active' ts with
  | zero => exact Or.inl rfl
  | succ room ih =>
    refine (isComparison_agreesUpTo _).solve_succ (fun us _ => ih h us) fun x _ => ?_
    by_cases hx' : x ∈ active'
    · exact Or.inr (failsWith_isCyclic hx')
    · rw [operand_of_not_mem hx', operand_of_not_mem (mt (@h x) hx')]
      cases lookup x with
      | none => exact Or.inl rfl
      | some us =>
        exact ih (fun y hy => List.mem_append.mpr ((List.mem_append.mp hy).imp_left (@h y))) us

theorem isComparison_eq : IsComparison Eq where
  refl _ := rfl
  bind {r r' g g'} h hg := by rw [h, funext hg]

/-- The outcome depends on no other variables than those that the list reaches. -/
theorem solve_eq_of_reachable {ts : List Token}
    (h : ∀ x, Reachable lookup ts x → lookup x = lookup' x) :
    solve lookup limit room active ts = solve lookup' limit room active ts := by
  induction room generalizing active ts with
  | zero => rfl
  | succ room ih =>
    refine isComparison_eq.solve_succ (fun us hus => ?_) fun x hx => ?_
    · exact ih fun z ⟨y, hy, hyz⟩ => h z ⟨y, .inside hus hy, hyz⟩
    by_cases hactive : x ∈ active
    · rw [operand_of_mem hactive, operand_of_mem hactive]
    have hreach : Reachable lookup ts x := ⟨x, .here hx, .refl⟩
    rw [operand_of_not_mem hactive, operand_of_not_mem hactive, ← h x hreach]
    cases hus : lookup x with
    | none => rfl
    | some us => exact ih fun z ⟨y, hy, hyz⟩ => h z ⟨x, .here hx, .head ⟨us, hus, hy⟩ hyz⟩

end Abacus.Evaluation
