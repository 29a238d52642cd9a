import Mathlib.Data.List.Chain
import Mathlib.Logic.Relation
import Abacus.Proofs.Evaluation.Reading

/-! # Dependencies between variables

A variable depends on those that occur as operands of its definition. The
evaluation of a list reports a cycle only where the dependencies that the list
reaches have one, and reports an unknown name only where it reaches one. A list
that reaches either has no value.
-/

namespace Abacus.Evaluation

open Relation

/-- A name stands as an operand in the list or in a group at any depth in it. -/
inductive Occurs (x : String) : List Token → Prop where
  | here {ts : List Token} : .identifier x ∈ operands ts → Occurs x ts
  | inside {ts us : List Token} : .group us ∈ operands ts → Occurs x us → Occurs x ts

variable (lookup : String → Option (List Token))

def Depends (x y : String) : Prop :=
  ∃ ts, lookup x = some ts ∧ Occurs y ts

/-- A name occurs in the list, or some name in the list leads to it through definitions. -/
def Reachable (ts : List Token) (y : String) : Prop :=
  ∃ x, Occurs x ts ∧ ReflTransGen (Depends lookup) x y

/-- A closed chain of names, each depending on the next, with no other repetition. -/
structure IsCycle (chain : List String) : Prop where
  two_le_length : 2 ≤ chain.length
  closed : chain.head? = chain.getLast?
  nodup : chain.dropLast.Nodup
  defined : ∀ x ∈ chain.dropLast, lookup x ≠ none
  depends : chain.IsChain (Depends lookup)

variable {lookup}

theorem Reachable.depends {ts : List Token} {x y : String} (h : Reachable lookup ts x)
    (hxy : Depends lookup x y) : Reachable lookup ts y := by
  obtain ⟨z, hz, hzx⟩ := h
  exact ⟨z, hz, hzx.tail hxy⟩

theorem IsCycle.transGen {chain : List String} (h : IsCycle lookup chain) {x : String}
    (hx : x ∈ chain.head?) : TransGen (Depends lookup) x x := by
  obtain ⟨hlength, hclosed, -, -, hdepends⟩ := h
  match chain with
  | [] => cases hx
  | [_] => simp at hlength
  | y :: z :: chain =>
    cases hx
    obtain ⟨hyz, hchain⟩ := List.isChain_cons_cons.mp hdepends
    have hlast : (z :: chain).getLast (List.cons_ne_nil _ _) = x := by
      rw [List.head?_cons, List.getLast?_cons_cons,
        List.getLast?_eq_some_getLast (List.cons_ne_nil _ _)] at hclosed
      exact (Option.some.inj hclosed).symm
    have hzy := List.relationReflTransGen_of_exists_isChain_cons chain hchain hlast
    exact TransGen.head' hyz hzy

theorem dropWhile_ne_eq_cons {x : String} {active : List String} (h : x ∈ active) :
    ∃ rest, active.dropWhile (· ≠ x) = x :: rest := by
  induction active with
  | nil => cases h
  | cons y active ih =>
    by_cases hy : y = x
    · exact ⟨active, by simp [hy]⟩
    · obtain ⟨rest, hrest⟩ := ih ((List.mem_cons.mp h).resolve_left (Ne.symm hy))
      exact ⟨rest, by rw [List.dropWhile_cons_of_pos (by simpa using hy), hrest]⟩

/--
What holds while a list inside a definition is evaluated: the active names form a chain of
dependencies that starts at the outermost list and ends at the definition that holds the list.
-/
structure Path (lookup : String → Option (List Token)) (top : List Token) (active : List String)
    (ts : List Token) : Prop where
  nodup : active.Nodup
  defined : ∀ x ∈ active, lookup x ≠ none
  depends : active.IsChain (Depends lookup)
  reachable : ∀ x ∈ active, Reachable lookup top x
  occurs : ∀ x, Occurs x ts → Reachable lookup top x ∧ ∀ y ∈ active.getLast?, Depends lookup y x

namespace Path

variable {top ts us : List Token} {active : List String} {x : String}

theorem start (ts : List Token) : Path lookup ts [] ts where
  nodup := List.nodup_nil
  defined := fun _ h => nomatch h
  depends := .nil
  reachable := fun _ h => nomatch h
  occurs := fun x h => ⟨⟨x, h, .refl⟩, fun _ h => nomatch h⟩

theorem group (h : Path lookup top active ts) (hus : .group us ∈ operands ts) :
    Path lookup top active us :=
  { h with occurs := fun x hx => h.occurs x (.inside hus hx) }

theorem name (h : Path lookup top active ts) (hx : .identifier x ∈ operands ts)
    (hnew : x ∉ active) (hus : lookup x = some us) : Path lookup top (active ++ [x]) us := by
  obtain ⟨hreach, hlast⟩ := h.occurs x (.here hx)
  refine ⟨?_, ?_, ?_, ?_, ?_⟩
  · exact List.nodup_append.mpr ⟨h.nodup, by simp, by
      rintro a ha b hb rfl
      exact hnew (List.mem_singleton.mp hb ▸ ha)⟩
  · intro y hy
    rcases List.mem_append.mp hy with hy | hy
    · exact h.defined y hy
    · simp [List.mem_singleton.mp hy, hus]
  · refine h.depends.append (.singleton x) ?_
    rintro y hy z hz
    cases hz
    exact hlast y hy
  · intro y hy
    rcases List.mem_append.mp hy with hy | hy
    · exact h.reachable y hy
    · exact List.mem_singleton.mp hy ▸ hreach
  · intro y hy
    have hxy : Depends lookup x y := ⟨us, hus, hy⟩
    refine ⟨hreach.depends hxy, ?_⟩
    intro z hz
    rw [List.getLast?_concat] at hz
    cases hz
    exact hxy

theorem isCycle (h : Path lookup top active ts) (hx : .identifier x ∈ operands ts)
    (hactive : x ∈ active) : IsCycle lookup (active.dropWhile (· ≠ x) ++ [x]) := by
  obtain ⟨rest, hrest⟩ := dropWhile_ne_eq_cons hactive
  -- The chain is the end of the active names from `x` on, and then `x` again.
  have hsuffix : x :: rest <:+ active := hrest ▸ List.dropWhile_suffix _
  rw [hrest]
  have hlast : ∀ y ∈ (x :: rest).getLast?, Depends lookup y x := by
    intro y hy
    refine (h.occurs x (.here hx)).2 y ?_
    obtain ⟨before, rfl⟩ := hsuffix
    rw [List.getLast?_append_of_ne_nil _ (List.cons_ne_nil _ _)]
    exact hy
  refine ⟨?_, ?_, ?_, ?_, ?_⟩
  · simp
  · rw [List.getLast?_concat]
    rfl
  · rw [List.dropLast_concat]
    exact h.nodup.sublist hsuffix.sublist
  · rw [List.dropLast_concat]
    exact fun y hy => h.defined y (hsuffix.mem hy)
  · refine (h.depends.suffix hsuffix).append (.singleton x) ?_
    rintro y hy z hz
    cases hz
    exact hlast y hy

end Path

/-- What a fault says about names is true of what the list reaches. -/
def Diagnosed (lookup : String → Option (List Token)) (top : List Token) : Fault → Prop
  | .cyclic chain => IsCycle lookup chain ∧ ∀ x ∈ chain.head?, Reachable lookup top x
  | .undefined x => lookup x = none ∧ Reachable lookup top x
  | _ => True

theorem Fault.IsLocal.diagnosed {f : Fault} (h : f.IsLocal) (top : List Token) :
    Diagnosed lookup top f := by
  cases f with
  | undefined | cyclic | nestingTooDeep | expectedValue => exact h.elim
  | divisionByZero | emptyExpression | emptyDefinition | missingOperand | unexpectedToken =>
    trivial

theorem diagnosed_of_solve {limit : Int} {room : Nat} {active : List String} {top ts : List Token}
    {f : Fault} (hp : Path lookup top active ts)
    (h : solve lookup limit room active ts = .error f) : Diagnosed lookup top f := by
  induction room generalizing active ts with
  | zero =>
    cases h
    trivial
  | succ room ih =>
    rcases of_sequence_eq_error (fun _ => rfl) h with hf | ⟨t, ht, h⟩
    · exact hf.diagnosed top
    cases t with
    | value n => cases h
    | group us => exact ih (hp.group ht) h
    | operator op =>
      cases h
      trivial
    | assignment =>
      cases h
      trivial
    | identifier x =>
      simp only [operand] at h
      split at h
      · next hactive =>
        cases h
        refine ⟨hp.isCycle ht hactive, ?_⟩
        intro y hy
        obtain ⟨rest, hrest⟩ := dropWhile_ne_eq_cons hactive
        rw [hrest] at hy
        cases hy
        exact hp.reachable x hactive
      · next hnew =>
        split at h
        · next hnone =>
          cases h
          exact ⟨hnone, (hp.occurs x (.here ht)).1⟩
        · next us hus => exact ih (hp.name ht hnew hus) h

variable (lookup) in
/-- The list has a value, with so many levels left, when some names are active. -/
def Succeeds (limit : Int) (room : Nat) (ts : List Token) : Prop :=
  ∃ active n, solve lookup limit room active ts = .ok n

theorem Succeeds.of_occurs {limit : Int} {room : Nat} {ts : List Token} {x : String}
    (h : Succeeds lookup limit room ts) (hx : Occurs x ts) :
    ∃ us, lookup x = some us ∧ ∃ less < room, Succeeds lookup limit less us := by
  induction hx generalizing room with
  | @here ts hx =>
    obtain ⟨active, n, h⟩ := h
    cases room with
    | zero => cases h
    | succ room =>
      obtain ⟨m, hm⟩ := operand_of_sequence_eq_ok (fun _ => rfl) h _ hx
      simp only [operand] at hm
      split at hm
      · cases hm
      split at hm
      · cases hm
      · next us hus => exact ⟨us, hus, room, Nat.lt_succ_self room, _, m, hm⟩
  | @inside ts us hus _ ih =>
    obtain ⟨active, n, h⟩ := h
    cases room with
    | zero => cases h
    | succ room =>
      obtain ⟨m, hm⟩ := operand_of_sequence_eq_ok (fun _ => rfl) h _ hus
      obtain ⟨vs, hvs, less, hless, h⟩ := ih ⟨active, m, hm⟩
      exact ⟨vs, hvs, less, Nat.lt_succ_of_lt hless, h⟩

theorem Succeeds.of_reachable {limit : Int} {room : Nat} {ts : List Token} {x : String}
    (h : Succeeds lookup limit room ts) (hx : Reachable lookup ts x) :
    ∃ us, lookup x = some us ∧ ∃ less, Succeeds lookup limit less us := by
  obtain ⟨y, hy, hyx⟩ := hx
  induction hyx with
  | refl =>
    obtain ⟨us, hus, less, -, h⟩ := h.of_occurs hy
    exact ⟨us, hus, less, h⟩
  | tail _ hstep ih =>
    obtain ⟨us, hus, less, h⟩ := ih
    obtain ⟨vs, hvs, hz⟩ := hstep
    cases hus.symm.trans hvs
    obtain ⟨ws, hws, less, -, h⟩ := h.of_occurs hz
    exact ⟨ws, hws, less, h⟩

theorem Succeeds.of_transGen {limit : Int} {room : Nat} {us : List Token} {x y : String}
    (h : Succeeds lookup limit room us) (hus : lookup x = some us)
    (hxy : TransGen (Depends lookup) x y) :
    ∃ vs, lookup y = some vs ∧ ∃ less < room, Succeeds lookup limit less vs := by
  induction hxy with
  | single hstep =>
    obtain ⟨vs, hvs, hy⟩ := hstep
    cases hus.symm.trans hvs
    exact h.of_occurs hy
  | tail _ hstep ih =>
    obtain ⟨vs, hvs, less, hless, h⟩ := ih
    obtain ⟨ws, hws, hz⟩ := hstep
    cases hvs.symm.trans hws
    obtain ⟨ws, hws, fewer, hfewer, h⟩ := h.of_occurs hz
    exact ⟨ws, hws, fewer, Nat.lt_trans hfewer hless, h⟩

/-- Going round a cycle would take ever fewer levels. -/
theorem Succeeds.not_transGen {limit : Int} {room : Nat} {us : List Token} {x : String}
    (h : Succeeds lookup limit room us) (hus : lookup x = some us) :
    ¬ TransGen (Depends lookup) x x := by
  intro hcycle
  induction room using Nat.strongRecOn with
  | ind room ih =>
    obtain ⟨vs, hvs, less, hless, h⟩ := h.of_transGen hus hcycle
    cases hus.symm.trans hvs
    exact ih less hless h

/--
Cycles and unknown names are reported only where the list reaches them, and a list that reaches one
has no value. Without a cycle no report of one is made, however often a variable is used.
-/
theorem evaluate_diagnoses_variables (lookup : String → Option (List Token)) (limit : Int)
    (ts : List Token) :
    (∀ chain, evaluate lookup limit ts = .error (.cyclic chain) →
      IsCycle lookup chain ∧ ∀ x ∈ chain.head?, Reachable lookup ts x) ∧
    (∀ x, evaluate lookup limit ts = .error (.undefined x) →
      lookup x = none ∧ Reachable lookup ts x) ∧
    ((∃ x, Reachable lookup ts x ∧ (lookup x = none ∨ TransGen (Depends lookup) x x)) →
      ∀ n, evaluate lookup limit ts ≠ .ok n) ∧
    ((∀ x, Reachable lookup ts x → ¬ TransGen (Depends lookup) x x) →
      ∀ chain, evaluate lookup limit ts ≠ .error (.cyclic chain)) := by
  have hsound {f : Fault} (h : evaluate lookup limit ts = .error f) : Diagnosed lookup ts f :=
    diagnosed_of_solve (.start ts) h
  refine ⟨fun chain h => hsound h, fun x h => hsound h, ?_, ?_⟩
  · rintro ⟨x, hx, hbad⟩ n h
    have hsucceeds : Succeeds lookup limit (Depth.effective limit + 1).toNat ts := ⟨[], n, h⟩
    obtain ⟨us, hus, _, hx⟩ := hsucceeds.of_reachable hx
    rcases hbad with hnone | hcycle
    · cases hnone.symm.trans hus
    · exact hx.not_transGen hus hcycle
  · intro hacyclic chain h
    obtain ⟨hchain, hreach⟩ : IsCycle lookup chain ∧ ∀ x ∈ chain.head?, Reachable lookup ts x :=
      hsound h
    match chain, hchain.two_le_length with
    | x :: _, _ => exact hacyclic x (hreach x rfl) (hchain.transGen rfl)

/-- A cycle entered from outside, through a group. -/
theorem evaluate_diagnoses_variables_of_loop :
    let lookup : String → Option (List Token) := fun x =>
      match x with
      | "a" => some [.value (.integer 1), .operator .add, .identifier "b"]
      | "b" => some [.group [.identifier "c", .operator .multiply, .value (.integer 2)]]
      | "c" => some [.identifier "c", .assignment, .identifier "b"]
      | _ => none
    evaluate lookup 100 [.identifier "a"] = .error (.cyclic ["b", "c", "b"]) ∧
      IsCycle lookup ["b", "c", "b"] ∧ Reachable lookup [.identifier "a"] "b" := by
  intro lookup
  have hfault : evaluate lookup 100 [.identifier "a"] = .error (.cyclic ["b", "c", "b"]) := rfl
  obtain ⟨hcyclic, -⟩ := evaluate_diagnoses_variables lookup 100 [.identifier "a"]
  obtain ⟨hcycle, hreach⟩ := hcyclic ["b", "c", "b"] hfault
  exact ⟨hfault, hcycle, hreach "b" rfl⟩

end Abacus.Evaluation
