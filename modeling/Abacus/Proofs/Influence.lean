import Abacus.Proofs.Evaluation.Comparison
import Abacus.Proofs.History

/-! # What a line can be influenced by

The outcome of a line rests on the variables that the line reaches through their
definitions, and on no others. Stores that agree on them are the same to it, and
so is a session before and after lines that assign none of them.
-/

namespace Abacus

open Evaluation

namespace Evaluation

variable {lookup : String → Option (List Token)} {ts : List Token} {x : String}

theorem Reachable.of_closed {P : String → Prop} (h : Reachable lookup ts x)
    (hts : ∀ y, Occurs y ts → P y) (hclosed : ∀ y z, P y → Depends lookup y z → P z) : P x := by
  obtain ⟨y, hy, hyx⟩ := h
  induction hyx with
  | refl => exact hts y hy
  | tail _ hstep ih => exact hclosed _ _ ih hstep

theorem Occurs.eq_of_operands {y : String} (h : Occurs x ts)
    (hts : operands ts = [.identifier y]) : x = y := by
  cases h with
  | here hx =>
    rw [hts, List.mem_singleton] at hx
    exact Token.identifier.inj hx
  | inside hus _ =>
    rw [hts, List.mem_singleton] at hus
    cases hus

end Evaluation

theorem Store.lookup_assignAll_of_forall_ne (s : Store) {entries : List (String × List Token)}
    {x : String} (h : ∀ entry ∈ entries, x ≠ entry.1) :
    (s.assignAll entries).lookup x = s.lookup x := by
  induction entries using List.reverseRecOn with
  | nil => rfl
  | append_singleton entries entry ih =>
    obtain ⟨hentries, hentry⟩ := List.forall_mem_append.mp h
    have hne : x ≠ entry.1 := hentry entry (List.mem_singleton_self entry)
    rw [assignAll_append_singleton, lookup_assign, if_neg hne, ih hentries]

namespace Session

variable {s t : Session} {line : String}

/-- The tokens that the line is read to lead to the variable. -/
def Reaches (s : Session) (line x : String) : Prop :=
  ∃ ts, Line.parse s.settings.groupDepth line = .ok ts ∧ Reachable s.store.lookup ts x

theorem outcome_congr (hsettings : s.settings = t.settings)
    (h : ∀ ts, Line.parse s.settings.groupDepth line = .ok ts → s.evaluate ts = t.evaluate ts) :
    s.outcome line = t.outcome line := by
  unfold outcome
  rw [← hsettings]
  cases hparse : Line.parse s.settings.groupDepth line with
  | error e => rfl
  | ok ts => simp only [h ts hparse]

/-- Sessions whose stores agree on the variables that a line reaches are the same to the line. -/
theorem outcome_eq_of_reaches (hsettings : s.settings = t.settings)
    (h : ∀ x, s.Reaches line x → s.store.lookup x = t.store.lookup x) :
    s.outcome line = t.outcome line := by
  refine outcome_congr hsettings fun ts hparse => ?_
  rw [evaluate, evaluate, ← hsettings]
  exact solve_eq_of_reachable fun x hx => h x ⟨ts, hparse, hx⟩

theorem fst_ne_of_mem_assigned? {os : List (Except Failure Outcome)} {x : String}
    (h : ∀ ts, .ok (.assigned x ts) ∉ os) : ∀ entry ∈ os.filterMap assigned?, x ≠ entry.1 := by
  rintro ⟨y, ts⟩ hentry rfl
  obtain ⟨o, ho, hassigned⟩ := List.mem_filterMap.mp hentry
  unfold assigned? at hassigned
  split at hassigned
  · cases hassigned
    exact h ts ho
  · cases hassigned

/--
A list of tokens comes to the same, in value or fault, with any variables that agree on what it
reaches. So no assignment of a variable that it does not reach changes it, and no run of lines that
assign only such variables changes the outcome of a line.
-/
theorem outcome_determined_by_reachable :
    (∀ (lookup lookup' : String → Option (List Token)) (limit : Int) (ts : List Token),
      (∀ x, Reachable lookup ts x → lookup x = lookup' x) →
      Evaluation.evaluate lookup limit ts = Evaluation.evaluate lookup' limit ts) ∧
    (∀ (store : Store) (x : String) (us : List Token) (limit : Int) (ts : List Token),
      ¬ Reachable store.lookup ts x →
      Evaluation.evaluate (store.assign x us).lookup limit ts =
        Evaluation.evaluate store.lookup limit ts) ∧
    ∀ (s : Session) (lines : List String) (line : String),
      (∀ x ts, .ok (.assigned x ts) ∈ (s.run lines).1 → ¬ s.Reaches line x) →
      (s.run lines).2.outcome line = s.outcome line := by
  refine ⟨fun lookup lookup' limit ts h => solve_eq_of_reachable h, ?_, ?_⟩
  · intro store x us limit ts hx
    refine (solve_eq_of_reachable fun y hy => ?_).symm
    have hne : y ≠ x := fun e => hx (e ▸ hy)
    rw [Store.lookup_assign, if_neg hne]
  · intro s lines line h
    refine (outcome_eq_of_reaches (settings_run s lines).symm fun x hx => ?_).symm
    rw [store_run, Store.lookup_assignAll_of_forall_ne]
    exact fst_ne_of_mem_assigned? fun ts hassigned => h x ts hassigned hx

/-- A cycle stays the one that is reported, whatever is assigned beside it. -/
theorem outcome_determined_by_reachable_cycle :
    let s : Session := (Session.run {} ["a = b", "b = a"]).2
    ¬ s.Reaches "a" "c" ∧ (s.run ["c = a", "a + b", "c = 3"]).2.outcome "a" =
      .error (.evaluation (.cyclic ["a", "b", "a"])) := by
  intro s
  have hc : ¬ s.Reaches "a" "c" := by
    rintro ⟨ts, hparse, hreach⟩
    obtain rfl : [.identifier "a"] = ts := Except.ok.inj hparse
    have hclosed : "c" = "a" ∨ "c" = "b" := by
      refine hreach.of_closed (P := fun x => x = "a" ∨ x = "b") ?_ ?_
      · exact fun x hx => Or.inl (hx.eq_of_operands rfl)
      · rintro x y (rfl | rfl) ⟨us, hus, hy⟩
        · obtain rfl : [.identifier "a", .assignment, .identifier "b"] = us := Option.some.inj hus
          exact Or.inr (hy.eq_of_operands rfl)
        · obtain rfl : [.identifier "b", .assignment, .identifier "a"] = us := Option.some.inj hus
          exact Or.inl (hy.eq_of_operands rfl)
    exact absurd hclosed (by decide)
  have hassigned : (s.run ["c = a", "a + b", "c = 3"]).1.filterMap assigned? =
      [("c", [.identifier "c", .assignment, .identifier "a"]),
        ("c", [.identifier "c", .assignment, .value (.integer 3)])] := rfl
  obtain ⟨-, -, hrun⟩ := outcome_determined_by_reachable
  refine ⟨hc, (hrun s _ "a" fun x ts hmem => ?_).trans rfl⟩
  have hentry : (x, ts) ∈ (s.run ["c = a", "a + b", "c = 3"]).1.filterMap assigned? :=
    List.mem_filterMap.mpr ⟨_, hmem, rfl⟩
  rw [hassigned] at hentry
  have hx : x = "c" := by
    rcases List.mem_cons.mp hentry with hx | hentry
    · exact congrArg Prod.fst hx
    · exact congrArg Prod.fst (List.mem_singleton.mp hentry)
  exact hx ▸ hc

end Session

end Abacus
