import Abacus.Proofs.Shape
import Abacus.Store

/-! # Levels that an evaluation can reach

No name is entered while it is being resolved. So an evaluation goes no deeper
than the groups of its list nest, together with one level for each variable and
those of the groups in its definition, whatever cycles there are.
-/

namespace Abacus.Token

mutual

def height : Token → Nat
  | .group ts => nesting ts + 1
  | .value _ | .identifier _ | .operator _ | .assignment => 0

/-- The most groups of the list that lie in one another. -/
def nesting : List Token → Nat
  | [] => 0
  | t :: ts => max t.height (nesting ts)

end

variable {ts us : List Token} {t : Token}

theorem height_le_nesting (h : t ∈ ts) : t.height ≤ nesting ts := by
  induction ts with
  | nil => cases h
  | cons u ts ih =>
    rw [nesting]
    rcases List.mem_cons.mp h with rfl | h
    · exact Nat.le_max_left _ _
    · exact Nat.le_trans (ih h) (Nat.le_max_right _ _)

theorem height_le_of_isOperand {inner : List Token → Prop} {depth : Nat}
    (hinner : ∀ us, inner us → nesting us < depth) (h : IsOperand inner t) : t.height ≤ depth := by
  cases t with
  | group us => exact hinner us h
  | value | identifier | operator | assignment => exact Nat.zero_le _

theorem nesting_le_of_alternates {operand : Token → Prop} {depth : Nat}
    (hoperand : ∀ t, operand t → t.height ≤ depth) (h : Alternates operand ts) :
    nesting ts ≤ depth := by
  induction h with
  | last ht => simpa [nesting] using hoperand _ ht
  | more ht _ ih =>
    simp only [nesting, height, Nat.zero_max]
    exact Nat.max_le.mpr ⟨hoperand _ ht, ih⟩

theorem nesting_lt_of_isGroup {depth : Nat} (h : IsGroup depth ts) : nesting ts < depth := by
  induction depth generalizing ts with
  | zero => exact h.elim
  | succ depth ih =>
    exact Nat.lt_succ_of_le
      (nesting_le_of_alternates (fun _ => height_le_of_isOperand fun _ => ih) h)

theorem IsExpression.nesting_le {depth : Nat} (h : IsExpression depth ts) : nesting ts ≤ depth :=
  nesting_le_of_alternates (fun _ => height_le_of_isOperand fun _ => nesting_lt_of_isGroup) h

theorem IsAssignment.nesting_le {depth : Nat} {x : String} (h : IsAssignment depth x ts) :
    nesting ts ≤ depth := by
  obtain ⟨us, rfl, hus⟩ := h
  simpa [nesting, height] using hus.nesting_le

end Abacus.Token

namespace Abacus

open Token

/-- One level for each variable, and those of the groups in what is stored for it. -/
def levels : List (String × List Token) → Nat
  | [] => 0
  | (_, ts) :: entries => 1 + nesting ts + levels entries

variable {entries : List (String × List Token)} {x : String} {us : List Token}

theorem levels_filter_le (p : String × List Token → Bool) :
    levels (entries.filter p) ≤ levels entries := by
  induction entries with
  | nil => exact Nat.le_refl _
  | cons entry entries ih =>
    rw [List.filter_cons]
    split
    · exact Nat.add_le_add_left ih _
    · exact Nat.le_trans ih (Nat.le_add_left _ _)

theorem levels_filter_ne_add_le (h : (x, us) ∈ entries) :
    levels (entries.filter (·.1 ≠ x)) + (1 + nesting us) ≤ levels entries := by
  induction entries with
  | nil => cases h
  | cons entry entries ih =>
    rcases List.mem_cons.mp h with rfl | h
    · rw [List.filter_cons_of_neg (by simp), Nat.add_comm]
      exact Nat.add_le_add_left (levels_filter_le _) _
    · have hle := ih h
      rw [List.filter_cons, levels]
      split
      · rw [levels]
        omega
      · omega

theorem Store.mem_of_lookup {s : Store} (h : s.lookup x = some us) : (x, us) ∈ s.entries := by
  obtain ⟨entry, hentry, rfl⟩ := Option.map_eq_some_iff.mp h
  have hx : entry.1 = x := by simpa using List.find?_some hentry
  exact hx ▸ List.mem_of_find?_eq_some hentry

namespace Evaluation

theorem nesting_lt_of_group_mem_operands {ts us : List Token} (h : .group us ∈ operands ts) :
    nesting us < nesting ts :=
  height_le_nesting (mem_of_mem_operands h)

/-- The levels left cover the groups of the list and all variables that are not active. -/
theorem solve_ne_nestingTooDeep {s : Store} {limit limit' : Int} {room : Nat} {active : List String}
    {ts : List Token}
    (h : nesting ts + levels (s.entries.filter (·.1 ∉ active)) < room) :
    solve s.lookup limit room active ts ≠ .error (.nestingTooDeep limit') := by
  intro hdeep
  induction room generalizing active ts with
  | zero => cases h
  | succ room ih =>
    rcases of_sequence_eq_error operand_value hdeep with hf | ⟨t, ht, hdeep⟩
    · exact hf
    cases t with
    | value | operator | assignment => cases hdeep
    | group us =>
      have hus := nesting_lt_of_group_mem_operands ht
      exact ih (by omega) hdeep
    | identifier x =>
      by_cases hx : x ∈ active
      · rw [operand_of_mem hx] at hdeep
        cases hdeep
      rw [operand_of_not_mem hx] at hdeep
      cases hus : s.lookup x with
      | none =>
        rw [hus] at hdeep
        cases hdeep
      | some us =>
        rw [hus] at hdeep
        refine ih ?_ hdeep
        -- `x` is no longer unused: its levels are now those of the list that is entered.
        have hmem : (x, us) ∈ s.entries.filter (·.1 ∉ active) :=
          List.mem_filter.mpr ⟨Store.mem_of_lookup hus, by simpa using hx⟩
        have hrest : s.entries.filter (·.1 ∉ active ++ [x]) =
            (s.entries.filter (·.1 ∉ active)).filter (·.1 ≠ x) := by
          simp [List.filter_filter, and_comm]
        have hle := levels_filter_ne_add_le hmem
        rw [hrest]
        omega

/--
Cycles alone bound how deep an evaluation goes: at most as deep as the groups of its list, all the
variables and the groups in their definitions allow.
-/
theorem evaluate_ne_nestingTooDeep {s : Store} {limit : Int} {ts : List Token}
    (h : (nesting ts + levels s.entries : Nat) ≤ limit) :
    (limit ≤ Depth.greatest →
      ∀ limit', evaluate s.lookup limit ts ≠ .error (.nestingTooDeep limit')) ∧
    ∀ limit', solve s.lookup limit (limit + 1).toNat [] ts ≠ .error (.nestingTooDeep limit') := by
  have hall : s.entries.filter (·.1 ∉ ([] : List String)) = s.entries :=
    List.filter_eq_self.mpr fun _ _ => decide_eq_true List.not_mem_nil
  have hsolve : ∀ limit', solve s.lookup limit (limit + 1).toNat [] ts ≠
      .error (.nestingTooDeep limit') :=
    fun _ => solve_ne_nestingTooDeep (by rw [hall]; omega)
  refine ⟨fun hlimit => ?_, hsolve⟩
  unfold evaluate
  rwa [Depth.effective_of_le hlimit]

/-- A cycle through groups takes all the levels that there are, and one less is too few. -/
theorem evaluate_ne_nestingTooDeep_of_loop :
    let s : Store := {
      entries := [("a", [.group [.identifier "b"]]), ("b", [.group [.group [.identifier "a"]]])]
      nodup := by decide }
    let ts : List Token := [.group [.identifier "a"]]
    (nesting ts + levels s.entries : Nat) ≤ (6 : Int) ∧ (6 : Int) ≤ Depth.greatest ∧
      (∀ limit', evaluate s.lookup 6 ts ≠ .error (.nestingTooDeep limit')) ∧
      evaluate s.lookup 6 ts = .error (.cyclic ["a", "b", "a"]) ∧
      evaluate s.lookup 5 ts = .error (.nestingTooDeep 5) := by
  intro s ts
  have hlevels : (nesting ts + levels s.entries : Nat) ≤ (6 : Int) := by decide
  have hlimit : (6 : Int) ≤ Depth.greatest := by decide
  exact ⟨hlevels, hlimit, (evaluate_ne_nestingTooDeep hlevels).1 hlimit, rfl, rfl⟩

end Evaluation

end Abacus
