import Mathlib.Data.List.Induction
import Abacus.Proofs.Line.Reading

/-! # Where a scan stands

What one character does to a scan that takes it, and what a scan then knows of
the text that it has taken: how long it is, which parentheses are open, and where
the literal that is being read began.
-/

namespace Abacus.Line

/-- The offsets of the parentheses that a text leaves open, innermost first. -/
def openParentheses (cs : List Char) : List Nat :=
  cs.zipIdx.foldl (fun offsets (c, i) =>
    if c = '(' then i :: offsets else if c = ')' then offsets.tail else offsets) []

theorem openParentheses_append_singleton (cs : List Char) (c : Char) :
    openParentheses (cs ++ [c]) = if c = '(' then cs.length :: openParentheses cs
      else if c = ')' then (openParentheses cs).tail else openParentheses cs := by
  simp only [openParentheses, List.zipIdx_append, List.foldl_append, List.zipIdx_singleton,
    List.foldl_cons, List.foldl_nil, Nat.zero_add]

variable {limit : Int} {s s' : Scan} {c : Char} {cs : List Char} {e : Error}

namespace Scan

theorem operand_eq_ok (h : s.operand limit c = .ok s') :
    isSpace c ∧ s' = s.advance .operand ∨ startsLiteral c ∧ s' = s.advance (.literal s.offset [c]) ∨
      c.isAlpha ∧ s' = s.advance (.name [c]) ∨ c = '(' ∧ s' = s.openGroup := by
  unfold operand at h
  split at h
  · next hc => exact Or.inl ⟨hc, (Except.ok.inj h).symm⟩
  split at h
  · next hc => exact Or.inr (Or.inl ⟨hc, (Except.ok.inj h).symm⟩)
  split at h
  · next hc => exact Or.inr (Or.inr (Or.inl ⟨hc, (Except.ok.inj h).symm⟩))
  split at h
  · next hc =>
    split at h
    · cases h
    · exact Or.inr (Or.inr (Or.inr ⟨hc, (Except.ok.inj h).symm⟩))
  · cases h

theorem operator_eq_ok (h : s.operator c = .ok s') :
    isSpace c ∧ s' = s.advance .operator ∨
      (∃ op : Operator, c = op.symbol ∧ s' = (s.push (.operator op)).advance .operand) ∨
      (c = ')' ∧ s.closeGroup = .ok s') ∨ c = '=' ∧ s' = (s.push .assignment).advance .operand := by
  unfold operator at h
  split at h
  · next hc => exact Or.inl ⟨hc, (Except.ok.inj h).symm⟩
  split at h
  · next op hop =>
    exact Or.inr (Or.inl ⟨op, ofSymbol?_eq_some_iff.mp hop, (Except.ok.inj h).symm⟩)
  split at h
  · next hc => exact Or.inr (Or.inr (Or.inl ⟨hc, h⟩))
  split at h
  · next hc =>
    unfold assign at h
    split at h
    · exact Or.inr (Or.inr (Or.inr ⟨hc, (Except.ok.inj h).symm⟩))
    · cases h
  · cases h

theorem settle_eq_ok (h : s.settle = .ok s') :
    s'.offset = s.offset ∧ s'.frames = s.frames ∧
      (s.phase = .operand ∧ s' = s ∨ s'.phase = .operator) := by
  obtain ⟨i, frames, tokens, phase⟩ := s
  cases phase with
  | operand =>
    cases h
    exact ⟨rfl, rfl, Or.inl ⟨rfl, rfl⟩⟩
  | operator | name =>
    cases h
    exact ⟨rfl, rfl, Or.inr rfl⟩
  | literal start text =>
    simp only [settle] at h
    split at h
    · cases h
      exact ⟨rfl, rfl, Or.inr rfl⟩
    · cases h

def extend (s : Scan) (c : Char) : Scan :=
  match s.phase with
  | .operand | .operator => s
  | .literal start text => s.advance (.literal start (c :: text))
  | .name text => s.advance (.name (c :: text))

theorem step_of_continues (h : s.phase.continues c) : s.step limit c = .ok (s.extend c) := by
  obtain ⟨i, frames, tokens, phase⟩ := s
  cases phase with
  | operand | operator => cases h
  | literal start text =>
    have hc : continuesLiteral c := h
    simp only [step, hc, if_true]
    rfl
  | name text =>
    have hc : c.isAlphanum := h
    simp only [step, hc, if_true]
    rfl

theorem step_eq_ok (h : s.step limit c = .ok s') :
    s.phase.continues c ∧ s' = s.extend c ∨
      s.phase = .operand ∧ s.operand limit c = .ok s' ∨
      ∃ s₁, s.settle = .ok s₁ ∧ s₁.operator c = .ok s' := by
  by_cases hc : s.phase.continues c
  · rw [step_of_continues hc] at h
    exact Or.inl ⟨hc, (Except.ok.inj h).symm⟩
  rw [step_eq_settle hc] at h
  cases hs : s.settle with
  | error e =>
    rw [hs] at h
    cases h
  | ok s₁ =>
    rw [hs] at h
    rcases (settle_eq_ok hs).2.2 with ⟨hphase, rfl⟩ | hphase
    · simp only [Except.bind, step, hphase] at h
      exact Or.inr (Or.inl ⟨hphase, h⟩)
    · simp only [Except.bind, step, hphase] at h
      exact Or.inr (Or.inr ⟨s₁, rfl, h⟩)

/-- One character further on, with the parentheses that it leaves open. -/
structure Moves (s : Scan) (c : Char) (s' : Scan) : Prop where
  offset : s'.offset = s.offset + 1
  starts : s'.frames.map Frame.start = if c = '(' then s.offset :: s.frames.map Frame.start
    else if c = ')' then (s.frames.map Frame.start).tail else s.frames.map Frame.start

theorem Moves.of_frames_eq {p : Char → Bool} (hc : p c) (hoffset : s'.offset = s.offset + 1)
    (hframes : s'.frames = s.frames) (hopen : p '(' = false) (hclose : p ')' = false) :
    Moves s c s' := by
  have hopen : c ≠ '(' := fun e => absurd (e ▸ hc) (Bool.eq_false_iff.mp hopen)
  have hclose : c ≠ ')' := fun e => absurd (e ▸ hc) (Bool.eq_false_iff.mp hclose)
  exact ⟨hoffset, by rw [if_neg hopen, if_neg hclose, hframes]⟩

theorem moves_of_operand (h : s.operand limit c = .ok s') : Moves s c s' := by
  rcases operand_eq_ok h with ⟨hc, rfl⟩ | ⟨hc, rfl⟩ | ⟨hc, rfl⟩ | ⟨rfl, rfl⟩
  · exact .of_frames_eq hc rfl rfl rfl rfl
  · exact .of_frames_eq hc rfl rfl rfl rfl
  · exact .of_frames_eq hc rfl rfl rfl rfl
  · exact ⟨rfl, rfl⟩

theorem moves_of_operator (h : s.operator c = .ok s') : Moves s c s' := by
  rcases operator_eq_ok h with ⟨hc, rfl⟩ | ⟨op, hc, rfl⟩ | ⟨rfl, hs'⟩ | ⟨hc, rfl⟩
  · exact .of_frames_eq hc rfl rfl rfl rfl
  · have hc : (Operator.ofSymbol? c).isSome := by rw [hc, Operator.ofSymbol?_symbol]; rfl
    exact .of_frames_eq (p := fun c => (Operator.ofSymbol? c).isSome) hc rfl rfl rfl rfl
  · unfold closeGroup at hs'
    split at hs'
    · cases hs'
    · next frame frames hframes =>
      cases hs'
      exact ⟨rfl, by rw [if_neg (by decide), if_pos rfl, hframes]; rfl⟩
  · exact .of_frames_eq (p := (· = '=')) (decide_eq_true hc) rfl rfl rfl rfl

theorem moves_extend (hc : s.phase.continues c) : Moves s c (s.extend c) := by
  obtain ⟨i, frames, tokens, phase⟩ := s
  cases phase with
  | operand | operator => cases hc
  | literal | name => exact .of_frames_eq hc rfl rfl rfl rfl

theorem moves_of_step (h : s.step limit c = .ok s') : Moves s c s' := by
  rcases step_eq_ok h with ⟨hc, rfl⟩ | ⟨-, h⟩ | ⟨s₁, hs₁, h⟩
  · exact moves_extend hc
  · exact moves_of_operand h
  · obtain ⟨hoffset, hframes, -⟩ := settle_eq_ok hs₁
    have hmoves := moves_of_operator h
    exact ⟨hoffset ▸ hmoves.offset, hframes ▸ hoffset ▸ hmoves.starts⟩

def Began (limit : Int) (cs : List Char) (s : Scan) (start : Nat) (text : List Char) : Prop :=
  ∃ before c run, cs = before ++ c :: run ∧ before.length = start ∧ text.reverse = c :: run ∧
    startsLiteral c ∧ (∀ d ∈ run, continuesLiteral d) ∧
    Scan.run limit {} before = .ok ⟨start, s.frames, s.tokens, .operand⟩

/-- What a scan knows of the text that it has taken. -/
structure Tracks (limit : Int) (cs : List Char) (s : Scan) : Prop where
  offset : s.offset = cs.length
  starts : s.frames.map Frame.start = openParentheses cs
  literal : ∀ start text, s.phase = .literal start text → Began limit cs s start text

theorem phase_eq_of_operator (h : s.operator c = .ok s') :
    s'.phase = .operand ∨ s'.phase = .operator := by
  rcases operator_eq_ok h with ⟨-, rfl⟩ | ⟨op, -, rfl⟩ | ⟨-, hs'⟩ | ⟨-, rfl⟩
  · exact Or.inr rfl
  · exact Or.inl rfl
  · unfold closeGroup at hs'
    split at hs'
    · cases hs'
    · cases hs'
      exact Or.inr rfl
  · exact Or.inl rfl

theorem began_of_step (h : Tracks limit cs s) (hrun : Scan.run limit {} cs = .ok s)
    (hstep : s.step limit c = .ok s') {start : Nat} {text : List Char}
    (hphase : s'.phase = .literal start text) : Began limit (cs ++ [c]) s' start text := by
  rcases step_eq_ok hstep with ⟨hc, rfl⟩ | ⟨hoperand, hs'⟩ | ⟨s₁, -, hs'⟩
  · obtain ⟨i, frames, tokens, phase⟩ := s
    cases phase with
    | operand | operator => cases hc
    | name => cases hphase
    | literal start text =>
      cases hphase
      obtain ⟨before, d, run, rfl, hstart, htext, hd, hrun, hbefore⟩ := h.literal start text rfl
      have hcontinues : ∀ d ∈ run ++ [c], continuesLiteral d :=
        List.forall_mem_append.mpr ⟨hrun, List.forall_mem_singleton.mpr hc⟩
      refine ⟨before, d, run ++ [c], ?_, hstart, ?_, hd, hcontinues, hbefore⟩
      · rw [List.append_assoc, List.cons_append]
      · rw [List.reverse_cons, htext, List.cons_append]
  · rcases operand_eq_ok hs' with ⟨-, rfl⟩ | ⟨hc, rfl⟩ | ⟨-, rfl⟩ | ⟨-, rfl⟩
    · cases hphase
    · cases hphase
      have hs : s = ⟨s.offset, s.frames, s.tokens, .operand⟩ := by rw [← hoperand]
      exact ⟨cs, c, [], rfl, h.offset.symm, rfl, hc, by simp, hs ▸ hrun⟩
    · cases hphase
    · cases hphase
  · rcases phase_eq_of_operator hs' with hdue | hdue
    · cases hphase.symm.trans hdue
    · cases hphase.symm.trans hdue

theorem tracks_step (h : Tracks limit cs s) (hrun : Scan.run limit {} cs = .ok s)
    (hstep : s.step limit c = .ok s') : Tracks limit (cs ++ [c]) s' where
  offset := by
    rw [(moves_of_step hstep).offset, h.offset, List.length_append, List.length_singleton]
  starts := by
    rw [(moves_of_step hstep).starts, openParentheses_append_singleton, h.starts, h.offset]
  literal _ _ hphase := began_of_step h hrun hstep hphase

theorem run_concat (limit : Int) (s : Scan) (cs : List Char) (c : Char) :
    s.run limit (cs ++ [c]) = (s.run limit cs).bind (·.step limit c) := by
  rw [run_append]
  congr 1
  funext s
  change (s.step limit c).bind .ok = s.step limit c
  cases s.step limit c <;> rfl

theorem tracks_run (h : Scan.run limit {} cs = .ok s) : Tracks limit cs s := by
  induction cs using List.reverseRecOn generalizing s with
  | nil =>
    cases h
    exact ⟨rfl, rfl, fun _ _ hphase => nomatch hphase⟩
  | append_singleton cs c ih =>
    rw [run_concat] at h
    obtain ⟨s₁, hs₁, hstep⟩ := of_bind_eq_ok h
    exact tracks_step (ih hs₁) hs₁ hstep

end Scan

end Abacus.Line
