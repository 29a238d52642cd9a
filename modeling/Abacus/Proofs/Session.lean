import Abacus.Proofs.Shape
import Abacus.Session

/-! # Runs of a session

Every variable that a run stores keeps the shape that its line was read with, so
whatever later lines evaluate is made of alternations only.
-/

namespace Abacus

open Token

/-- Each variable is stored as an assignment to itself, in which groups nest at most so deep. -/
def Store.WellShaped (depth : Nat) (s : Store) : Prop :=
  ∀ x ts, s.lookup x = some ts → IsAssignment depth x ts

namespace Session

variable {s : Session} {line : String}

def WellShaped (s : Session) : Prop :=
  s.store.WellShaped s.settings.groupDepth.1.toNat

theorem wellShaped_start (settings : Settings) : WellShaped { settings } :=
  fun _ _ h => nomatch h

theorem isAssignment_of_outcome {x : String} {ts : List Token}
    (h : s.outcome line = .ok (.assigned x ts)) :
    IsAssignment s.settings.groupDepth.1.toNat x ts := by
  unfold outcome at h
  split at h
  · cases h
  next us hparse =>
  split at h
  · next y htarget =>
    cases h
    rcases Line.shape_of_parse hparse with hts | ⟨y, hts⟩
    · cases hts.target?_eq_none.symm.trans htarget
    · cases hts.target?_eq_some.symm.trans htarget
      exact hts
  · split at h <;> cases h

theorem wellShaped_execute (hs : s.WellShaped) (line : String) : (s.execute line).2.WellShaped := by
  unfold WellShaped
  rw [settings_execute]
  unfold execute
  cases ho : s.outcome line with
  | error f => exact hs
  | ok o =>
    cases o with
    | evaluated ts n => exact hs
    | assigned x ts =>
      intro y us hus
      have hlookup : (s.store.assign x ts).lookup y = some us := hus
      rw [Store.lookup_assign] at hlookup
      split at hlookup
      · next hy =>
        cases hlookup
        exact hy ▸ isAssignment_of_outcome ho
      · exact hs y us hlookup

theorem not_isStructural_of_evaluate (hs : s.WellShaped) {ts : List Token}
    (hparse : Line.parse s.settings.groupDepth line = .ok ts) {f : Evaluation.Fault}
    (h : s.evaluate ts = .error f) : ¬ f.IsStructural := by
  refine Evaluation.not_isStructural_of_solve (fun x us hus => ?_) ?_ h
  · exact ⟨_, (hs x us hus).isExpression_definition⟩
  · rcases Line.shape_of_parse hparse with hts | ⟨x, hts⟩
    · exact ⟨_, hts.definition_eq_self.symm ▸ hts⟩
    · exact ⟨_, hts.isExpression_definition⟩

/-- A line of a session leaves no token over, so the stack makes no difference to it. -/
theorem evaluateOn_eq_evaluate (hs : s.WellShaped) {ts : List Token}
    (hparse : Line.parse s.settings.groupDepth line = .ok ts) (fits : Token → Bool) :
    Evaluation.evaluateOn s.store.lookup fits s.settings.evaluationDepth ts = s.evaluate ts := by
  cases h : s.evaluate ts with
  | ok n =>
    rw [evaluate] at h
    rw [Evaluation.evaluateOn, h]
    rfl
  | error f =>
    have hf := not_isStructural_of_evaluate hs hparse h
    rw [evaluate] at h
    rw [Evaluation.evaluateOn, h]
    cases f with
    | unexpectedToken => exact absurd trivial hf
    | _ => rfl

theorem not_isStructural_of_outcome (hs : s.WellShaped) {f : Evaluation.Fault}
    (h : s.outcome line = .error (.evaluation f)) : ¬ f.IsStructural := by
  unfold outcome at h
  split at h
  · cases h
  next ts hparse =>
  split at h
  · cases h
  next htarget =>
  split at h
  · next f' hevaluate =>
    cases h
    exact not_isStructural_of_evaluate hs hparse hevaluate
  · cases h

theorem not_isStructural_of_execute (hs : s.WellShaped) {f : Evaluation.Fault}
    (h : (s.execute line).1 = .error (.evaluation f)) : ¬ f.IsStructural := by
  unfold execute at h
  split at h
  · next ho =>
    cases h
    exact not_isStructural_of_outcome hs ho
  · cases h

theorem wellShaped_run (hs : s.WellShaped) (lines : List String) : (s.run lines).2.WellShaped := by
  induction lines generalizing s with
  | nil => exact hs
  | cons line lines ih => exact ih (wellShaped_execute hs line)

theorem not_isStructural_of_mem_run (hs : s.WellShaped) {lines : List String}
    {f : Evaluation.Fault} (hf : .error (.evaluation f) ∈ (s.run lines).1) : ¬ f.IsStructural := by
  induction lines generalizing s with
  | nil => cases hf
  | cons line lines ih =>
    rcases List.mem_cons.mp hf with hf | hf
    · exact not_isStructural_of_execute hs hf.symm
    · exact ih (wellShaped_execute hs line) hf

/--
From an empty store on, a run keeps every variable as an assignment of alternations, so no line
that it executes ends in a structural fault.
-/
theorem run_wellShaped_and_not_isStructural (settings : Settings) (lines : List String) :
    (run { settings } lines).2.store.WellShaped settings.groupDepth.1.toNat ∧
      ∀ f, .error (.evaluation f) ∈ (run { settings } lines).1 → ¬ f.IsStructural := by
  constructor
  · have h : (run { settings } lines).2.WellShaped :=
      wellShaped_run (wellShaped_start settings) lines
    unfold WellShaped at h
    rwa [settings_run] at h
  · intro f hf
    exact not_isStructural_of_mem_run (wellShaped_start settings) hf

theorem run_wellShaped_and_not_isStructural_assignment :
    let ts : List Token := [.identifier "a", .assignment, .group [.identifier "b"],
      .operator .divide, .value (.integer 0)]
    (run {} ["a = (b)/0", "+"]).2.store.lookup "a" = some ts ∧ IsAssignment 100 "a" ts := by
  intro ts
  obtain ⟨hshape, -⟩ := run_wellShaped_and_not_isStructural {} ["a = (b)/0", "+"]
  have hlookup : (run {} ["a = (b)/0", "+"]).2.store.lookup "a" = some ts := rfl
  exact ⟨hlookup, hshape "a" ts hlookup⟩

end Session

end Abacus
