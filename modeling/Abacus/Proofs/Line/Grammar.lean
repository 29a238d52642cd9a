import Abacus.Proofs.Line.Literal

/-! # The grammar of lines

Each relation between two texts says what stands at the beginning of the first,
where the second is all that follows. Literals and names go on as far as they
can. What may stand in a group is a parameter of an operand, which the grammar
grants once for each level that groups may nest.
-/

namespace Abacus.Line

def Blank (cs rest : List Char) : Prop :=
  ∃ ws, (∀ c ∈ ws, isSpace c) ∧ cs = ws ++ rest

/-- A run of characters of a kind, which the rest does not continue. -/
def Run (p : Char → Bool) (run rest : List Char) : Prop :=
  (∀ c ∈ run, p c) ∧ ∀ c ∈ rest.head?, ¬ p c

/-- A letter, and letters and digits. -/
inductive Name : String → List Char → List Char → Prop where
  | run {c : Char} {run rest : List Char} : c.isAlpha → Run Char.isAlphanum run rest →
      Name (String.ofList (c :: run)) (c :: run ++ rest) rest

inductive Operand (inner : List Token → List Char → List Char → Prop) :
    Token → List Char → List Char → Prop where
  | literal {c : Char} {run rest : List Char} {n : Number} : startsLiteral c →
      Run continuesLiteral run rest → Literal (c :: run) n →
      Operand inner (.value n) (c :: run ++ rest) rest
  | name {x : String} {cs rest : List Char} : Name x cs rest →
      Operand inner (.identifier x) cs rest
  | group {ts : List Token} {cs rest : List Char} : inner ts cs (')' :: rest) →
      Operand inner (.group ts) ('(' :: cs) rest

/-- Operands with operators between them, and white space anywhere around them. -/
inductive Alternation (operand : Token → List Char → List Char → Prop) :
    List Token → List Char → List Char → Prop where
  | last {t : Token} {cs cs₁ cs₂ rest : List Char} : Blank cs cs₁ → operand t cs₁ cs₂ →
      Blank cs₂ rest → Alternation operand [t] cs rest
  | more {t : Token} {op : Operator} {ts : List Token} {cs cs₁ cs₂ cs₃ rest : List Char} :
      Blank cs cs₁ → operand t cs₁ cs₂ → Blank cs₂ (op.symbol :: cs₃) →
      Alternation operand ts cs₃ rest → Alternation operand (t :: .operator op :: ts) cs rest

def Group : Nat → List Token → List Char → List Char → Prop
  | 0 => fun _ _ _ => False
  | room + 1 => Alternation (Operand (Group room))

abbrev Expression (room : Nat) : List Token → List Char → List Char → Prop :=
  Alternation (Operand (Group room))

/-- An expression, or a name with `=` and an expression, up to the end of the line. -/
inductive Derives (room : Nat) : List Token → List Char → Prop where
  | expression {ts : List Token} {cs : List Char} : Expression room ts cs [] → Derives room ts cs
  | assignment {x : String} {ts : List Token} {cs cs₁ cs₂ cs₃ : List Char} : Blank cs cs₁ →
      Name x cs₁ cs₂ → Blank cs₂ ('=' :: cs₃) → Expression room ts cs₃ [] →
      Derives room (.identifier x :: .assignment :: ts) cs

theorem Blank.refl (cs : List Char) : Blank cs cs :=
  ⟨[], by simp, rfl⟩

theorem Blank.cons {c : Char} {cs rest : List Char} (hc : isSpace c) (h : Blank cs rest) :
    Blank (c :: cs) rest := by
  obtain ⟨ws, hws, rfl⟩ := h
  exact ⟨c :: ws, List.forall_mem_cons.mpr ⟨hc, hws⟩, rfl⟩

theorem Blank.eq_dropWhile {cs rest : List Char} (h : Blank cs rest)
    (hrest : ∀ c ∈ rest.head?, ¬ isSpace c) : rest = cs.dropWhile isSpace := by
  obtain ⟨ws, hws, rfl⟩ := h
  rw [List.dropWhile_append_of_pos hws]
  cases rest with
  | nil => rfl
  | cons c rest => rw [List.dropWhile_cons_of_neg (hrest c rfl)]

theorem Blank.unique {cs cs₁ cs₂ : List Char} (h₁ : Blank cs cs₁) (h₂ : Blank cs cs₂)
    (hcs₁ : ∀ c ∈ cs₁.head?, ¬ isSpace c) (hcs₂ : ∀ c ∈ cs₂.head?, ¬ isSpace c) : cs₁ = cs₂ := by
  rw [h₁.eq_dropWhile hcs₁, h₂.eq_dropWhile hcs₂]

theorem Run.nil {p : Char → Bool} {rest : List Char} (h : ∀ c ∈ rest.head?, ¬ p c) :
    Run p [] rest :=
  ⟨by simp, h⟩

theorem Run.cons {p : Char → Bool} {c : Char} {run rest : List Char} (hc : p c)
    (h : Run p run rest) : Run p (c :: run) rest :=
  ⟨List.forall_mem_cons.mpr ⟨hc, h.1⟩, h.2⟩

theorem Run.eq_takeWhile {p : Char → Bool} {run rest : List Char} (h : Run p run rest) :
    run = (run ++ rest).takeWhile p := by
  rw [List.takeWhile_append_of_pos h.1]
  cases rest with
  | nil => simp
  | cons c rest => rw [List.takeWhile_cons_of_neg (h.2 c rfl), List.append_nil]

theorem Run.unique {p : Char → Bool} {run run' rest rest' : List Char} (h : Run p run rest)
    (h' : Run p run' rest') (e : run ++ rest = run' ++ rest') : rest = rest' := by
  have hrun : run = run' := by rw [h.eq_takeWhile, e, ← h'.eq_takeWhile]
  subst hrun
  exact List.append_cancel_left e

section

variable {operand : Token → List Char → List Char → Prop} {ts : List Token} {cs rest : List Char}

theorem Alternation.blank {c : Char} (hc : isSpace c) (h : Alternation operand ts cs rest) :
    Alternation operand ts (c :: cs) rest := by
  cases h with
  | last hbefore ht hafter => exact .last (hbefore.cons hc) ht hafter
  | more hbefore ht hafter hts => exact .more (hbefore.cons hc) ht hafter hts

theorem Alternation.ne_nil (h : Alternation operand ts cs rest) : ts ≠ [] := by
  cases h <;> exact List.cons_ne_nil _ _

end

theorem eq_of_isSpace {c : Char} (h : isSpace c) :
    c = ' ' ∨ c = '\t' ∨ c = '\r' ∨ c = '\n' := by
  simpa [isSpace, or_assoc] using h

theorem not_isSpace_of_startsLiteral {c : Char} (h : startsLiteral c) : ¬ isSpace c := by
  intro hs
  rcases eq_of_isSpace hs with rfl | rfl | rfl | rfl <;> exact absurd h (by decide)

theorem not_isSpace_of_isAlpha {c : Char} (h : c.isAlpha) : ¬ isSpace c := by
  intro hs
  rcases eq_of_isSpace hs with rfl | rfl | rfl | rfl <;> exact absurd h (by decide)

theorem not_startsLiteral_of_isAlpha {c : Char} (h : c.isAlpha) : ¬ startsLiteral c := by
  intro hs
  simp only [startsLiteral, continuesLiteral, Bool.or_eq_true, decide_eq_true_eq] at hs
  rcases hs with (hs | rfl) | rfl
  · have hd := Char.isDigit_iff_toNat.mp hs
    unfold Char.isAlpha Char.isUpper Char.isLower at h
    simp only [Bool.or_eq_true, Bool.and_eq_true, decide_eq_true_eq, ge_iff_le,
      UInt32.le_iff_toNat_le] at h
    simp only [Char.toNat, Char.reduceVal, UInt32.reduceToNat] at hd h
    omega
  · exact absurd h (by decide)
  · exact absurd h (by decide)

theorem ofSymbol?_eq_some_iff {c : Char} {op : Operator} :
    Operator.ofSymbol? c = some op ↔ c = op.symbol := by
  constructor
  · intro h
    unfold Operator.ofSymbol? at h
    split at h <;> cases h <;> rfl
  · rintro rfl
    exact Operator.ofSymbol?_symbol op

theorem not_isSpace_symbol (op : Operator) : ¬ isSpace op.symbol := by
  cases op <;> decide

end Abacus.Line
