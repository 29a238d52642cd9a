import Abacus.Proofs.Evaluation.Reading

/-! # Formulas

Written out in full, a list is a formula: its groups and the definitions of its
variables are nested in it, down to the numbers. A list with a value has exactly
one formula, which has the same value. With fewer levels than the formula is
high the list is too deep, and with that many it has its value.
-/

namespace Abacus.Evaluation

inductive Formula where
  | number (n : Number)
  /-- A group, or the definition of a variable. -/
  | nested (inner : Formula)
  | node (op : Operator) (left right : Formula)

namespace Formula

def height : Formula → Nat
  | number _ => 0
  | nested f => f.height + 1
  | node _ l r => max l.height r.height

def numbers : Formula → List Number
  | number n => [n]
  | nested f => f.numbers
  | node _ l r => l.numbers ++ r.numbers

def operators : Formula → List Operator
  | number _ => []
  | nested f => f.operators
  | node op l r => op :: (l.operators ++ r.operators)

def value : Formula → Except Fault Number
  | number n => .ok n
  | nested f => f.value
  | node op l r => do
    let left ← l.value
    let right ← r.value
    apply op left right

end Formula

/-- The whole list reads as this tree. -/
def Reads (ts : List Token) (t : Tree) : Prop :=
  ∃ first rest, Token.definition ts = first :: rest ∧ leftover rest = [] ∧ t = tree first rest

theorem Reads.unique {ts : List Token} {t t' : Tree} (h : Reads ts t) (h' : Reads ts t') :
    t = t' := by
  obtain ⟨first, rest, hts, -, rfl⟩ := h
  obtain ⟨first', rest', hts', -, rfl⟩ := h'
  cases hts.symm.trans hts'
  rfl

section

variable {operand : Token → Except Fault Number} {ts : List Token}

theorem sequence_of_reads (hvalue : ∀ n, operand (.value n) = .ok n) {t : Tree}
    (h : Reads ts t) : sequence operand ts = t.value (place operand) := by
  obtain ⟨first, rest, hts, hrest, rfl⟩ := h
  rw [sequence_eq_value hvalue hts]
  unfold finish
  rw [hrest]
  exact bind_pure _

theorem exists_reads_of_sequence (hvalue : ∀ n, operand (.value n) = .ok n) {n : Number}
    (h : sequence operand ts = .ok n) : ∃ t, Reads ts t ∧ t.value (place operand) = .ok n := by
  cases hts : Token.definition ts with
  | nil =>
    simp only [sequence, hts] at h
    cases h
  | cons first rest =>
    rw [sequence_eq_value hvalue hts] at h
    obtain ⟨m, hm, h⟩ := of_bind_eq_ok h
    unfold finish at h
    split at h
    · next hrest =>
      cases h
      exact ⟨_, ⟨first, rest, hts, hrest, rfl⟩, hm⟩
    · cases h

end

variable (lookup : String → Option (List Token))

/-- The tree is this formula, with its groups and variables written out. -/
inductive Unfolds : Tree → Formula → Prop where
  | value (n : Number) : Unfolds (.leaf (some (.value n))) (.number n)
  | group {ts : List Token} {t : Tree} {f : Formula} : Reads ts t → Unfolds t f →
      Unfolds (.leaf (some (.group ts))) (.nested f)
  | identifier {x : String} {ts : List Token} {t : Tree} {f : Formula} : lookup x = some ts →
      Reads ts t → Unfolds t f → Unfolds (.leaf (some (.identifier x))) (.nested f)
  | node {op : Operator} {l r : Tree} {f g : Formula} : Unfolds l f → Unfolds r g →
      Unfolds (.node op l r) (.node op f g)

def HasFormula (ts : List Token) (f : Formula) : Prop :=
  ∃ t, Reads ts t ∧ Unfolds lookup t f

variable {lookup}

theorem Unfolds.unique {t : Tree} {f g : Formula} (h : Unfolds lookup t f)
    (h' : Unfolds lookup t g) : f = g := by
  induction h generalizing g with
  | value n => cases h'; rfl
  | group ht _ ih =>
    cases h' with
    | group ht' h' =>
      cases ht.unique ht'
      rw [ih h']
  | identifier hts ht _ ih =>
    cases h' with
    | identifier hts' ht' h' =>
      cases hts.symm.trans hts'
      cases ht.unique ht'
      rw [ih h']
  | node _ _ ihl ihr =>
    cases h' with
    | node hl hr => rw [ihl hl, ihr hr]

theorem HasFormula.eq_iff {ts : List Token} {f g : Formula} (h : HasFormula lookup ts f) :
    HasFormula lookup ts g ↔ g = f := by
  constructor
  · rintro ⟨t', ht', hg⟩
    obtain ⟨t, ht, hf⟩ := h
    cases ht.unique ht'
    exact hg.unique hf
  · rintro rfl
    exact h

/-- An outcome that takes this many levels, and is too deep with fewer. -/
def Needs (levels : Nat) (n : Number) (outcome : Int → Nat → Except Fault Number) : Prop :=
  ∀ limit room, outcome limit room =
    if levels ≤ room then .ok n else .error (.nestingTooDeep limit)

theorem Needs.zero (n : Number) : Needs 0 n fun _ _ => .ok n :=
  fun _ _ => (if_pos (Nat.zero_le _)).symm

theorem Needs.apply {op : Operator} {h k : Nat} {a b n : Number}
    {left right : Int → Nat → Except Fault Number} (hl : Needs h a left) (hr : Needs k b right)
    (hn : apply op a b = .ok n) : Needs (max h k) n (fun limit room => do
      let a ← left limit room
      let b ← right limit room
      Evaluation.apply op a b) := by
  intro limit room
  simp only [hl limit room, hr limit room]
  by_cases hleft : h ≤ room
  · by_cases hright : k ≤ room
    · rw [if_pos hleft, if_pos hright, if_pos (Nat.max_le.mpr ⟨hleft, hright⟩)]
      exact hn
    · rw [if_pos hleft, if_neg hright, if_neg fun h => hright (Nat.max_le.mp h).2]
      rfl
  · rw [if_neg hleft, if_neg fun h => hleft (Nat.max_le.mp h).1]
    rfl

theorem Needs.solve {levels : Nat} {n : Number} {active : List String} {ts : List Token} {t : Tree}
    (ht : Reads ts t) (h : Needs levels n fun limit room =>
      t.value (place (operand lookup (solve lookup limit room) active))) :
    Needs (levels + 1) n fun limit room => solve lookup limit room active ts := by
  intro limit room
  cases room with
  | zero => rfl
  | succ room =>
    change sequence _ ts = _
    rw [sequence_of_reads operand_value ht]
    simpa only [Nat.add_le_add_iff_right] using h limit room

theorem exists_unfolds_of_value {limit : Int} {room : Nat} {active : List String}
    (hdeeper : ∀ {active ts n}, solve lookup limit room active ts = .ok n →
      ∃ f, HasFormula lookup ts f ∧ f.value = .ok n ∧
        Needs (f.height + 1) n fun limit room => solve lookup limit room active ts)
    {t : Tree} {n : Number}
    (h : t.value (place (operand lookup (solve lookup limit room) active)) = .ok n) :
    ∃ f, Unfolds lookup t f ∧ f.value = .ok n ∧ Needs f.height n fun limit room =>
      t.value (place (operand lookup (solve lookup limit room) active)) := by
  induction t generalizing n with
  | leaf p =>
    match p with
    | none | some (.operator _) | some .assignment => cases h
    | some (.value m) =>
      cases h
      exact ⟨.number n, .value n, rfl, .zero n⟩
    | some (.group us) =>
      obtain ⟨f, ⟨t, ht, hf⟩, hvalue, hneeds⟩ := hdeeper h
      exact ⟨.nested f, .group ht hf, hvalue, hneeds⟩
    | some (.identifier x) =>
      by_cases hx : x ∈ active
      · rw [Tree.value, place, operand_of_mem hx] at h
        cases h
      cases hus : lookup x with
      | none =>
        rw [Tree.value, place, operand_of_not_mem hx, hus] at h
        cases h
      | some us =>
        have hentry (limit : Int) (room : Nat) : (Tree.leaf (some (.identifier x))).value
            (place (operand lookup (solve lookup limit room) active)) =
              solve lookup limit room (active ++ [x]) us := by
          rw [Tree.value, place, operand_of_not_mem hx, hus]
        rw [hentry] at h
        simp only [hentry]
        obtain ⟨f, ⟨t, ht, hf⟩, hvalue, hneeds⟩ := hdeeper h
        exact ⟨.nested f, .identifier hus ht hf, hvalue, hneeds⟩
  | node op l r ihl ihr =>
    obtain ⟨a, hl, h⟩ := of_bind_eq_ok h
    obtain ⟨b, hr, h⟩ := of_bind_eq_ok h
    obtain ⟨f, hf, hfa, hneedsl⟩ := ihl hl
    obtain ⟨g, hg, hgb, hneedsr⟩ := ihr hr
    refine ⟨.node op f g, .node hf hg, ?_, hneedsl.apply hneedsr h⟩
    rw [Formula.value, hfa, hgb]
    exact h

/-- A list with a value has a formula of that value, and takes the levels that the formula has. -/
theorem exists_hasFormula_of_solve {limit : Int} {room : Nat} {active : List String}
    {ts : List Token} {n : Number} (h : solve lookup limit room active ts = .ok n) :
    ∃ f, HasFormula lookup ts f ∧ f.value = .ok n ∧
      Needs (f.height + 1) n fun limit room => solve lookup limit room active ts := by
  induction room generalizing active ts n with
  | zero => cases h
  | succ room ih =>
    obtain ⟨t, ht, h⟩ := exists_reads_of_sequence operand_value h
    obtain ⟨f, hf, hvalue, hneeds⟩ := exists_unfolds_of_value ih h
    exact ⟨f, ⟨t, ht, hf⟩, hvalue, hneeds.solve ht⟩

end Abacus.Evaluation
