import Mathlib.Data.List.Forall2
import Mathlib.Data.List.Induction
import Abacus.Session

/-! # The history of a session

What a session comes to depends on its assignments alone. They are the lines that
read as one, whatever the variables stand for at that time. All other lines leave
no trace, and a later line sees no more than the latest assignment of each name.
-/

namespace Abacus

open Token

/-- What the last of the assignments of a name gives it. -/
def latest (x : String) (entries : List (String × List Token)) : Option (List Token) :=
  (entries.reverse.find? fun entry => entry.1 = x).map Prod.snd

namespace Store

def assignAll (s : Store) (entries : List (String × List Token)) : Store :=
  entries.foldl (fun s entry => s.assign entry.1 entry.2) s

theorem assignAll_append_singleton (s : Store) (entries : List (String × List Token))
    (entry : String × List Token) :
    s.assignAll (entries ++ [entry]) = (s.assignAll entries).assign entry.1 entry.2 :=
  List.foldl_concat ..

theorem names_assignAll (entries : List (String × List Token)) :
    (assignAll {} entries).names = (entries.map Prod.fst).eraseDups := by
  induction entries using List.reverseRecOn with
  | nil => rfl
  | append_singleton entries entry ih =>
    have hmem : entry.1 ∈ (entries.map Prod.fst).eraseDups ↔ entry.1 ∈ entries.map Prod.fst :=
      List.mem_eraseDups
    rw [assignAll_append_singleton, names_assign, ih, List.map_append, List.eraseDups_append]
    by_cases h : entry.1 ∈ entries.map Prod.fst
    · have hnew : [entry.1].removeAll (entries.map Prod.fst) = [] := by simp [List.removeAll, h]
      rw [if_pos (hmem.mpr h), List.map_singleton, hnew, List.eraseDups_nil, List.append_nil]
    · have hnew : [entry.1].removeAll (entries.map Prod.fst) = [entry.1] := by
        simp [List.removeAll, h]
      rw [if_neg (mt hmem.mp h), List.map_singleton, hnew]
      rfl

theorem lookup_assignAll (entries : List (String × List Token)) (x : String) :
    (assignAll {} entries).lookup x = latest x entries := by
  induction entries using List.reverseRecOn with
  | nil => rfl
  | append_singleton entries entry ih =>
    rw [assignAll_append_singleton, lookup_assign, ih, latest, latest, List.reverse_concat]
    by_cases h : x = entry.1
    · simp [h]
    · simp [h, Ne.symm h]

end Store

namespace Session

variable {s t : Session} {line : String}

/-- What a line that did not fail assigned, if it did. -/
def assigned? : Except Failure Outcome → Option (String × List Token)
  | .ok (.assigned x ts) => some (x, ts)
  | _ => none

theorem outcome_eq_assigned_iff {x : String} {ts : List Token} :
    s.outcome line = .ok (.assigned x ts) ↔
      Line.parse s.settings.groupDepth line = .ok ts ∧ target? ts = some x := by
  constructor
  · intro h
    unfold outcome at h
    split at h
    · cases h
    next hparse =>
    split at h
    · next htarget =>
      cases h
      exact ⟨hparse, htarget⟩
    · split at h <;> cases h
  · rintro ⟨hparse, htarget⟩
    simp only [outcome, hparse, htarget]

theorem fst_execute (s : Session) (line : String) : (s.execute line).1 = s.outcome line := by
  unfold execute
  split <;> next h => exact h.symm

theorem store_execute (s : Session) (line : String) :
    (s.execute line).2.store = s.store.assignAll (assigned? (s.outcome line)).toList := by
  unfold execute
  cases s.outcome line with
  | error f => rfl
  | ok o => cases o <;> rfl

theorem execute_of_assigned?_eq_none (h : assigned? (s.outcome line) = none) :
    (s.execute line).2 = s := by
  unfold execute
  cases ho : s.outcome line with
  | error f => rfl
  | ok o =>
    cases o with
    | assigned x ts =>
      rw [ho] at h
      cases h
    | evaluated ts n => rfl

theorem run_cons (s : Session) (line : String) (lines : List String) :
    s.run (line :: lines) = (s.outcome line :: ((s.execute line).2.run lines).1,
      ((s.execute line).2.run lines).2) := by
  rw [← fst_execute]
  rfl

theorem store_run (s : Session) (lines : List String) :
    (s.run lines).2.store = s.store.assignAll ((s.run lines).1.filterMap assigned?) := by
  induction lines generalizing s with
  | nil => rfl
  | cons line lines ih =>
    rw [run_cons, ih, store_execute]
    cases h : assigned? (s.outcome line) with
    | none => rw [List.filterMap_cons_none h]; rfl
    | some entry => rw [List.filterMap_cons_some h]; rfl

theorem forall₂_run (s : Session) (lines : List String) :
    List.Forall₂ (fun line o => ∀ x ts, o = .ok (.assigned x ts) ↔
      Line.parse s.settings.groupDepth line = .ok ts ∧ target? ts = some x)
      lines (s.run lines).1 := by
  induction lines generalizing s with
  | nil => exact .nil
  | cons line lines ih =>
    have hlines := ih (s.execute line).2
    rw [settings_execute] at hlines
    rw [run_cons]
    exact .cons (fun x ts => outcome_eq_assigned_iff) hlines

theorem map_snd_zip_run (s : Session) (lines : List String) :
    (lines.zip (s.run lines).1).map Prod.snd = (s.run lines).1 :=
  List.map_snd_zip (Nat.le_of_eq (length_run s lines))

theorem run_of_sublist (s : Session) {lines : List String}
    {kept : List (String × Except Failure Outcome)}
    (hkept : kept.Sublist (lines.zip (s.run lines).1))
    (hassigned : (kept.map Prod.snd).filterMap assigned? = (s.run lines).1.filterMap assigned?) :
    s.run (kept.map Prod.fst) = (kept.map Prod.snd, (s.run lines).2) := by
  induction lines generalizing s kept with
  | nil =>
    obtain rfl := List.sublist_nil.mp hkept
    rfl
  | cons line lines ih =>
    rw [run_cons] at hkept hassigned ⊢
    rw [List.zip_cons_cons] at hkept
    rcases hkept with _ | ⟨_, hkept⟩ | ⟨_, hkept⟩
    · have hnone : assigned? (s.outcome line) = none := by
        cases h : assigned? (s.outcome line) with
        | none => rfl
        | some entry =>
          have hsub := (hkept.map Prod.snd).filterMap assigned?
          rw [map_snd_zip_run, hassigned, List.filterMap_cons_some h] at hsub
          exact absurd hsub.length_le (by simp)
      rw [List.filterMap_cons_none hnone] at hassigned
      have hs : (s.execute line).2 = s := execute_of_assigned?_eq_none hnone
      rw [hs] at hkept hassigned ⊢
      exact ih s hkept hassigned
    · next kept =>
      have hassigned : (kept.map Prod.snd).filterMap assigned? =
          ((s.execute line).2.run lines).1.filterMap assigned? := by
        rw [List.map_cons] at hassigned
        cases h : assigned? (s.outcome line) with
        | none => rwa [List.filterMap_cons_none h, List.filterMap_cons_none h] at hassigned
        | some entry =>
          rw [List.filterMap_cons_some h, List.filterMap_cons_some h] at hassigned
          exact (List.cons.inj hassigned).2
      rw [List.map_cons, List.map_cons, run_cons, ih _ hkept hassigned]

/-- Sessions that differ at most in the order of their variables. -/
structure Alike (s t : Session) : Prop where
  settings : s.settings = t.settings
  lookup : s.store.lookup = t.store.lookup

theorem Alike.outcome (h : Alike s t) (line : String) : s.outcome line = t.outcome line := by
  have hevaluate : s.evaluate = t.evaluate := by
    funext ts
    rw [evaluate, evaluate, h.settings, h.lookup]
  unfold Session.outcome
  rw [h.settings, hevaluate]

theorem Alike.execute (h : Alike s t) (line : String) :
    Alike (s.execute line).2 (t.execute line).2 := by
  refine ⟨?_, ?_⟩
  · rw [settings_execute, settings_execute, h.settings]
  · rw [store_execute, store_execute, h.outcome]
    cases assigned? (t.outcome line) with
    | none => exact h.lookup
    | some entry =>
      funext y
      change (s.store.assign entry.1 entry.2).lookup y = (t.store.assign entry.1 entry.2).lookup y
      rw [Store.lookup_assign, Store.lookup_assign, h.lookup]

theorem Alike.run (h : Alike s t) (lines : List String) : (s.run lines).1 = (t.run lines).1 := by
  induction lines generalizing s t with
  | nil => rfl
  | cons line lines ih => rw [run_cons, run_cons, h.outcome, ih (h.execute line)]

/-- The latest assignments of two runs decide what all lines after them come to. -/
theorem alike_run (settings : Settings) {lines lines' : List String}
    (h : ∀ x, latest x ((Session.run { settings } lines).1.filterMap assigned?) =
      latest x ((Session.run { settings } lines').1.filterMap assigned?)) :
    Alike (Session.run { settings } lines).2 (Session.run { settings } lines').2 := by
  refine ⟨?_, ?_⟩
  · rw [settings_run, settings_run]
  · funext x
    rw [store_run, store_run]
    exact (Store.lookup_assignAll _ x).trans ((h x).trans (Store.lookup_assignAll _ x).symm)

/--
A run leaves its latest assignments, in the order of the first ones. Lines that assign nothing may
be left out of it, and the order of the assignments makes no difference to the lines after it.
-/
theorem run_determined_by_assignments (settings : Settings) (lines : List String) :
    let s : Session := { settings }
    let os := (s.run lines).1
    (s.run lines).2.store.names = ((os.filterMap assigned?).map Prod.fst).eraseDups ∧
    (∀ x, (s.run lines).2.store.lookup x = latest x (os.filterMap assigned?)) ∧
    List.Forall₂ (fun line o => ∀ x ts, o = .ok (.assigned x ts) ↔
      Line.parse settings.groupDepth line = .ok ts ∧ target? ts = some x) lines os ∧
    (∀ kept : List (String × Except Failure Outcome), kept.Sublist (lines.zip os) →
      (kept.map Prod.snd).filterMap assigned? = os.filterMap assigned? →
      s.run (kept.map Prod.fst) = (kept.map Prod.snd, (s.run lines).2)) ∧
    ∀ lines', (∀ x, latest x (os.filterMap assigned?) =
        latest x ((s.run lines').1.filterMap assigned?)) →
      ∀ more, ((s.run lines).2.run more).1 = ((s.run lines').2.run more).1 := by
  intro s os
  have hstore : (s.run lines).2.store = Store.assignAll {} (os.filterMap assigned?) :=
    store_run s lines
  refine ⟨?_, ?_, forall₂_run s lines, fun kept => run_of_sublist s, ?_⟩
  · rw [hstore, Store.names_assignAll]
  · intro x
    rw [hstore, Store.lookup_assignAll]
  · intro lines' h more
    exact (alike_run settings h).run more

/-- `b` and `a` are assigned in either order. The lines `a` and `+`, which fail, are left out. -/
theorem run_determined_by_assignments_either_order :
    let s : Session := {}
    let lines := ["b = a/0", "a", "a = 1", "+", "a = 2"]
    let b : List Token := [.identifier "b", .assignment, .identifier "a", .operator .divide,
      .value (.integer 0)]
    let a : List Token := [.identifier "a", .assignment, .value (.integer 2)]
    (s.run lines).2.store.names = ["b", "a"] ∧
      (s.run lines).2.store.lookup "b" = some b ∧ (s.run lines).2.store.lookup "a" = some a ∧
      s.run ["b = a/0", "a = 1", "a = 2"] =
        ((s.run ["b = a/0", "a = 1", "a = 2"]).1, (s.run lines).2) ∧
      ∀ more, ((s.run lines).2.run more).1 = ((s.run ["a = 2", "b = a/0"]).2.run more).1 := by
  intro s lines b a
  let a' : List Token := [.identifier "a", .assignment, .value (.integer 1)]
  have h : (s.run lines).1.filterMap assigned? = [("b", b), ("a", a'), ("a", a)] := rfl
  have h' : (s.run ["a = 2", "b = a/0"]).1.filterMap assigned? = [("a", a), ("b", b)] := rfl
  obtain ⟨hnames, hlookup, -, hkept, horder⟩ := run_determined_by_assignments {} lines
  have hnames : (s.run lines).2.store.names =
      ([("b", b), ("a", a'), ("a", a)].map Prod.fst).eraseDups := h ▸ hnames
  have hlookup (x : String) : (s.run lines).2.store.lookup x =
      latest x [("b", b), ("a", a'), ("a", a)] := h ▸ hlookup x
  refine ⟨hnames, hlookup "b", hlookup "a", ?_, ?_⟩
  · have hsub : (["b = a/0", "a = 1", "a = 2"].zip (s.run ["b = a/0", "a = 1", "a = 2"]).1).Sublist
        (lines.zip (s.run lines).1) := .cons_cons _ (.cons _ (.cons_cons _ (.cons _ (.refl _))))
    exact hkept _ hsub rfl
  · refine horder _ fun x => ?_
    change latest x ((s.run lines).1.filterMap assigned?) = _
    rw [h, h']
    by_cases ha : x = "a"
    · subst ha
      rfl
    by_cases hb : x = "b"
    · subst hb
      rfl
    · simp [latest, Ne.symm ha, Ne.symm hb]

end Session

end Abacus
