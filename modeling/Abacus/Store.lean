import Abacus.Token

/-! # Stored variables

A store keeps the tokens of each variable's latest assignment, in the order in
which the variables were first assigned.
-/

namespace Abacus

structure Store where
  entries : List (String × List Token) := []
  nodup : (entries.map Prod.fst).Nodup := by exact List.nodup_nil

namespace Store

def names (s : Store) : List String :=
  s.entries.map Prod.fst

def lookup (s : Store) (x : String) : Option (List Token) :=
  (s.entries.find? fun entry => entry.1 = x).map Prod.snd

def replace (x : String) (ts : List Token) (entry : String × List Token) : String × List Token :=
  if entry.1 = x then (x, ts) else entry

theorem fst_replace (x : String) (ts : List Token) (entry : String × List Token) :
    (replace x ts entry).1 = entry.1 := by
  unfold replace
  split <;> simp_all

/-- A new variable goes to the end; an old one keeps its place. -/
def assign (s : Store) (x : String) (ts : List Token) : Store :=
  if h : x ∈ s.names then
    { entries := s.entries.map (replace x ts)
      nodup := by
        have h : (Prod.fst ∘ replace x ts) = Prod.fst := funext (fst_replace x ts)
        simpa [h] using s.nodup }
  else
    { entries := s.entries ++ [(x, ts)]
      nodup := by
        have h' := s.nodup
        simp only [names] at h
        rw [List.map_append, List.nodup_append]
        refine ⟨h', by simp, ?_⟩
        rintro a ha b hb rfl
        simp only [List.map_cons, List.map_nil, List.mem_singleton] at hb
        exact h (hb ▸ ha) }

theorem names_assign (s : Store) (x : String) (ts : List Token) :
    (s.assign x ts).names = if x ∈ s.names then s.names else s.names ++ [x] := by
  have h : (Prod.fst ∘ replace x ts) = Prod.fst := funext (fst_replace x ts)
  unfold assign
  split <;> simp_all [names]

theorem lookup_eq_none_iff {s : Store} {x : String} : s.lookup x = none ↔ x ∉ s.names := by
  rw [lookup, Option.map_eq_none_iff, List.find?_eq_none]
  simp only [decide_eq_true_eq, names, List.mem_map, not_exists, not_and]

theorem lookup_assign (s : Store) (x y : String) (ts : List Token) :
    (s.assign x ts).lookup y = if y = x then some ts else s.lookup y := by
  by_cases h : x ∈ s.names
  · have hc : ((fun entry : String × List Token => decide (entry.1 = y)) ∘ replace x ts) =
        fun entry => decide (entry.1 = y) :=
      funext fun entry => by simp [fst_replace]
    simp only [assign, h, ↓reduceDIte, lookup, List.find?_map, hc, Option.map_map]
    cases hf : s.entries.find? fun entry => decide (entry.1 = y) with
    | none =>
      have hn : s.lookup y = none := by rw [lookup, hf, Option.map_none]
      have : y ≠ x := fun e => lookup_eq_none_iff.mp hn (e ▸ h)
      simp [this]
    | some entry =>
      have : entry.1 = y := by simpa using List.find?_some hf
      by_cases hy : y = x <;> simp_all [replace]
  · have hx : s.lookup x = none := lookup_eq_none_iff.mpr h
    simp only [lookup, Option.map_eq_none_iff] at hx
    by_cases hy : y = x
    · simp [assign, h, lookup, List.find?_append, hy, hx]
    · simp [assign, h, lookup, List.find?_append, hy, Ne.symm hy]

end Store

end Abacus
