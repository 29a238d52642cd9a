import Abacus.Proofs.Line.Progress

/-! # Faults and the place to blame

A line is refused at the first place where no line that is read could go on as it
does. The text before that place can be completed: where an operand is due by a
digit, and then by closing all open groups.
-/

namespace Abacus.Line

variable {limit : Int} {s s' : Scan} {c : Char} {cs : List Char} {e : Error}

/-- Some line that begins so is read. -/
def Viable (limit : Int) (cs : List Char) : Prop :=
  ∃ more ts, parse limit (String.ofList (cs ++ more)) = .ok ts

namespace Scan

theorem parse_of_run (h : Scan.run limit {} cs = .ok s) (more : List Char) :
    parse limit (String.ofList (cs ++ more)) = s.read limit more := by
  rw [parse, String.toList_ofList, run_append, h]
  rfl

theorem parse_of_run_eq_error (h : Scan.run limit {} cs = .error e) (more : List Char) :
    parse limit (String.ofList (cs ++ more)) = .error e := by
  rw [parse, String.toList_ofList, run_append, h]
  rfl

def closing (frames : List Frame) : List Char :=
  List.replicate frames.length ')'

theorem not_continues_closing (phase : Phase) (frames : List Frame) :
    ∀ c ∈ (closing frames).head?, ¬ phase.continues c := by
  intro c hc
  obtain rfl : c = ')' := List.eq_of_mem_replicate (List.mem_of_mem_head? hc)
  cases phase <;> exact Bool.false_ne_true

theorem exists_read_closing (limit : Int) (i : Nat) (frames : List Frame) (tokens : List Token) :
    ∃ ts, read limit ⟨i, frames, tokens, .operator⟩ (closing frames) = .ok ts := by
  induction frames generalizing i tokens with
  | nil => exact ⟨tokens.reverse, rfl⟩
  | cons frame frames ih =>
    obtain ⟨ts, hts⟩ := ih (i + 1) (.group tokens.reverse :: frame.before)
    refine ⟨ts, ?_⟩
    rw [closing, List.length_cons, List.replicate_succ, read_cons]
    exact hts

theorem exists_read_of_settle (limit : Int) (h : s.settle = .ok s') :
    ∃ more ts, s.read limit more = .ok ts := by
  obtain ⟨i, frames, tokens, phase⟩ := s
  obtain ⟨j, frames', tokens', phase'⟩ := s'
  obtain ⟨-, hframes, ⟨hphase, -⟩ | hphase⟩ := settle_eq_ok h
  · cases hphase
    have hzero : Literal ['0'] (.integer 0) :=
      (literal?_eq_some_iff (by decide) (by simp)).mp rfl
    have hrun : Run continuesLiteral [] (closing frames) :=
      .nil (not_continues_closing (.literal i []) frames)
    have hread : ∃ k, read limit ⟨i, frames, tokens, .operand⟩ (['0'] ++ closing frames) =
        read limit ⟨k, frames, .value (.integer 0) :: tokens, .operator⟩ (closing frames) :=
      read_literal (by decide) hrun hzero i
    obtain ⟨k, hk⟩ := hread
    obtain ⟨ts, hts⟩ := exists_read_closing limit k frames (.value (.integer 0) :: tokens)
    exact ⟨_, ts, hk.trans hts⟩
  · cases hframes
    cases hphase
    obtain ⟨ts, hts⟩ := exists_read_closing limit j frames tokens'
    refine ⟨closing frames, ts, ?_⟩
    rw [read_eq_settle (not_continues_closing phase frames), h]
    exact hts

theorem viable_of_run (hrun : Scan.run limit {} cs = .ok s) (h : s.settle = .ok s') :
    Viable limit cs := by
  obtain ⟨more, ts, hts⟩ := exists_read_of_settle limit h
  exact ⟨more, ts, (parse_of_run hrun more).trans hts⟩

theorem not_viable_of_step (hrun : Scan.run limit {} cs = .ok s) (h : s.step limit c = .error e) :
    ¬ Viable limit (cs ++ [c]) := by
  rintro ⟨more, ts, hts⟩
  have herror : Scan.run limit {} (cs ++ [c]) = .error e := by
    rw [run_concat, hrun]
    exact h
  cases (parse_of_run_eq_error herror more).symm.trans hts

end Scan

/-- The fault lies in a character that stands where it cannot. -/
def Fault.Blames (limit : Int) (c : Char) : Fault → Prop
  | expectedOperand (some found) | expectedOperator found => found = c.toString
  | unexpectedClose => c = ')'
  | misplacedAssignment => c = '='
  | groupTooDeep n => c = '(' ∧ n = limit
  | expectedOperand none | invalidNumber _ | unterminatedGroup => False

namespace Scan

theorem operand_eq_error (h : s.operand limit c = .error e) :
    e.offset = s.offset ∧ e.fault.Blames limit c := by
  unfold operand at h
  split at h
  · cases h
  split at h
  · cases h
  split at h
  · cases h
  split at h
  · next hc =>
    split at h
    · cases h
      exact ⟨rfl, hc, rfl⟩
    · cases h
  · cases h
    exact ⟨rfl, rfl⟩

theorem operator_eq_error (h : s.operator c = .error e) :
    e.offset = s.offset ∧ e.fault.Blames limit c := by
  unfold operator at h
  split at h
  · cases h
  split at h
  · cases h
  split at h
  · next hc =>
    unfold closeGroup at h
    split at h
    · cases h
      exact ⟨rfl, hc⟩
    · cases h
  split at h
  · next hc =>
    unfold assign at h
    split at h
    · cases h
    · cases h
      exact ⟨rfl, hc⟩
  · cases h
    exact ⟨rfl, rfl⟩

theorem settle_eq_error (h : s.settle = .error e) : ∃ start text, s.phase = .literal start text ∧
    e = ⟨.invalidNumber (String.ofList text.reverse), start⟩ := by
  obtain ⟨i, frames, tokens, phase⟩ := s
  cases phase with
  | operand | operator | name => cases h
  | literal start text =>
    simp only [settle] at h
    split at h
    · cases h
    · cases h
      exact ⟨start, text, rfl, rfl⟩

theorem step_eq_error (h : s.step limit c = .error e) : ¬ s.phase.continues c ∧
    (s.settle = .error e ∨
      (∃ s₁, s.settle = .ok s₁) ∧ e.offset = s.offset ∧ e.fault.Blames limit c) := by
  have hc : ¬ s.phase.continues c := by
    intro hc
    cases (step_of_continues hc).symm.trans h
  refine ⟨hc, ?_⟩
  rw [step_eq_settle hc] at h
  rcases of_bind_eq_error h with hs | ⟨s₁, hs₁, hstep⟩
  · exact Or.inl hs
  · refine Or.inr ⟨⟨s₁, hs₁⟩, ?_⟩
    obtain ⟨hoffset, -, ⟨hphase, rfl⟩ | hphase⟩ := settle_eq_ok hs₁
    · simp only [step, hphase] at hstep
      exact operand_eq_error hstep
    · simp only [step, hphase] at hstep
      exact hoffset ▸ operator_eq_error hstep

theorem finish_eq_error (h : s.finish = .error e) : s.settle = .error e ∨
    (∃ s₁, s.settle = .ok s₁) ∧
      (e.fault = .unterminatedGroup ∧ (s.frames.map Frame.start).head? = some e.offset ∨
        e.fault = .expectedOperand none ∧ e.offset = s.offset) := by
  rcases of_bind_eq_error h with hs | ⟨s₁, hs₁, hend⟩
  · exact Or.inl hs
  · obtain ⟨hoffset, hframes, -⟩ := settle_eq_ok hs₁
    refine Or.inr ⟨⟨s₁, hs₁⟩, ?_⟩
    rw [← hoffset, ← hframes]
    split at hend
    · next frame frames hframe =>
      cases hend
      exact Or.inl ⟨rfl, by rw [hframe]; rfl⟩
    · cases hend
      exact Or.inr ⟨rfl, rfl⟩
    · cases hend

theorem run_eq_error (h : Scan.run limit {} cs = .error e) : ∃ before c after s,
    cs = before ++ c :: after ∧ Scan.run limit {} before = .ok s ∧ s.step limit c = .error e := by
  induction cs using List.reverseRecOn with
  | nil => cases h
  | append_singleton cs c ih =>
    rw [run_concat] at h
    rcases of_bind_eq_error h with h | ⟨s, hs, h⟩
    · obtain ⟨before, d, after, s, rfl, hs, hd⟩ := ih h
      exact ⟨before, d, after ++ [c], s, by simp, hs, hd⟩
    · exact ⟨cs, c, [], s, rfl, hs, h⟩

end Scan

/-- The first character that makes a line one that cannot be completed. -/
def FirstWrong (limit : Int) (cs : List Char) (p : Nat) (c : Char) : Prop :=
  cs[p]? = some c ∧ Viable limit (cs.take p) ∧ ¬ Viable limit (cs.take (p + 1))

/-- A run that goes on as far as a literal can, and is no number whatever follows it. -/
def NoNumber (limit : Int) (cs : List Char) (p : Nat) (text : String) : Prop :=
  Viable limit (cs.take p) ∧ ∃ c run rest, cs.drop p = c :: run ++ rest ∧
    text = String.ofList (c :: run) ∧ startsLiteral c ∧ Run continuesLiteral run rest ∧
    ∀ more, (∀ d ∈ more.head?, ¬ continuesLiteral d) → ∀ ts,
      parse limit (String.ofList (cs.take p ++ (c :: run ++ more))) ≠ .ok ts

/-- Why the place is to blame, as the fault has it. -/
def Error.Explains (limit : Int) (cs : List Char) (e : Error) : Prop :=
  match e.fault with
  | .expectedOperand none => e.offset = cs.length ∧ Viable limit cs
  | .unterminatedGroup => cs[e.offset]? = some '(' ∧
      (openParentheses cs).head? = some e.offset ∧ Viable limit cs
  | .invalidNumber text => NoNumber limit cs e.offset text
  | fault => ∃ c, fault.Blames limit c ∧ FirstWrong limit cs e.offset c

theorem getElem?_of_mem_openParentheses {p : Nat} (h : p ∈ openParentheses cs) :
    cs[p]? = some '(' := by
  induction cs using List.reverseRecOn with
  | nil => cases h
  | append_singleton cs c ih =>
    have hold : p ∈ openParentheses cs → (cs ++ [c])[p]? = some '(' := fun hp => by
      have hlength : p < cs.length := (List.getElem?_eq_some_iff.mp (ih hp)).1
      rw [List.getElem?_append_left hlength, ih hp]
    rw [openParentheses_append_singleton] at h
    split at h
    · next hc =>
      rcases List.mem_cons.mp h with rfl | h
      · rw [List.getElem?_concat_length, hc]
      · exact hold h
    split at h
    · exact hold (List.mem_of_mem_tail h)
    · exact hold h

theorem explains_of_blames {before after : List Char} (hoffset : e.offset = before.length)
    (hblames : e.fault.Blames limit c) (hbefore : Viable limit before)
    (hwrong : ¬ Viable limit (before ++ [c])) : e.Explains limit (before ++ c :: after) := by
  have hfirst : FirstWrong limit (before ++ c :: after) e.offset c := by
    have htake : (before ++ c :: after).take (before.length + 1) = before ++ [c] := by
      rw [List.append_cons]
      exact List.take_left' (by simp)
    refine ⟨?_, ?_, ?_⟩
    · rw [hoffset, List.getElem?_append_right (Nat.le_refl _), Nat.sub_self]
      rfl
    · rwa [hoffset, List.take_left]
    · rwa [hoffset, htake]
  obtain ⟨fault, offset⟩ := e
  cases fault with
  | expectedOperand found =>
    cases found with
    | none => exact hblames.elim
    | some found => exact ⟨c, hblames, hfirst⟩
  | invalidNumber | unterminatedGroup => exact hblames.elim
  | expectedOperator | unexpectedClose | misplacedAssignment | groupTooDeep =>
    exact ⟨c, hblames, hfirst⟩

theorem explains_of_settle {rest : List Char} (hrun : Scan.run limit {} cs = .ok s)
    (h : s.settle = .error e) (hstop : ∀ d ∈ rest.head?, ¬ s.phase.continues d) :
    e.Explains limit (cs ++ rest) := by
  obtain ⟨start, text, hphase, rfl⟩ := Scan.settle_eq_error h
  obtain ⟨before, c, run, rfl, rfl, htext, hc, hcontinues, hbefore⟩ :=
    (Scan.tracks_run hrun).literal start text hphase
  rw [hphase] at hstop
  have htake : (before ++ c :: run ++ rest).take before.length = before := by
    rw [List.append_assoc, List.take_left]
  refine ⟨?_, c, run, rest, ?_, ?_, hc, ⟨hcontinues, hstop⟩, ?_⟩
  · rw [htake]
    exact Scan.viable_of_run hbefore rfl
  · rw [List.append_assoc, List.drop_left]
  · rw [htext]
  · intro more hmore ts hts
    rw [htake, ← List.append_assoc, Scan.parse_of_run hrun, Scan.read_eq_settle, h] at hts
    · cases hts
    · rw [hphase]
      exact hmore

theorem explains_of_finish (hrun : Scan.run limit {} cs = .ok s) (h : s.finish = .error e) :
    e.Explains limit cs := by
  have htracks := Scan.tracks_run hrun
  rcases Scan.finish_eq_error h with hs | ⟨⟨s₁, hs₁⟩, ⟨hfault, hopen⟩ | ⟨hfault, hoffset⟩⟩
  · have hexplains : e.Explains limit (cs ++ []) := explains_of_settle hrun hs (by simp)
    rwa [List.append_nil] at hexplains
  · rw [htracks.starts] at hopen
    have hmem : e.offset ∈ openParentheses cs := List.mem_of_mem_head? hopen
    simp only [Error.Explains, hfault]
    exact ⟨getElem?_of_mem_openParentheses hmem, hopen, Scan.viable_of_run hrun hs₁⟩
  · simp only [Error.Explains, hfault]
    exact ⟨hoffset.trans htracks.offset, Scan.viable_of_run hrun hs₁⟩

theorem explains_of_run (h : Scan.run limit {} cs = .error e) : e.Explains limit cs := by
  obtain ⟨before, c, after, s, rfl, hrun, hstep⟩ := Scan.run_eq_error h
  obtain ⟨hc, hs | ⟨⟨s₁, hs₁⟩, hoffset, hblames⟩⟩ := Scan.step_eq_error hstep
  · exact explains_of_settle hrun hs (by simpa using hc)
  · have hwrong : ¬ Viable limit (before ++ [c]) := Scan.not_viable_of_step hrun hstep
    exact explains_of_blames (hoffset.trans (Scan.tracks_run hrun).offset) hblames
      (Scan.viable_of_run hrun hs₁) hwrong

theorem Error.Explains.offset_le (h : e.Explains limit cs) : e.offset ≤ cs.length := by
  have hfirst {c : Char} (h : FirstWrong limit cs e.offset c) : e.offset ≤ cs.length :=
    Nat.le_of_lt (List.getElem?_eq_some_iff.mp h.1).1
  unfold Explains at h
  split at h
  · exact Nat.le_of_eq h.1
  · exact Nat.le_of_lt (List.getElem?_eq_some_iff.mp h.1).1
  · obtain ⟨-, c, run, rest, hdrop, -⟩ := h
    by_contra hlt
    rw [List.drop_eq_nil_of_le (by omega)] at hdrop
    cases hdrop
  · obtain ⟨c, -, h⟩ := h
    exact hfirst h

/--
A refused line is refused at the first character that no line which is read can have there, at the
literal there if that is no number, or, if only something is missing, at its end or at the innermost
group that is open.
-/
theorem explains_of_parse_eq_error {source : String} (h : parse limit source = .error e) :
    e.offset ≤ source.length ∧ e.Explains limit source.toList := by
  have hexplains : e.Explains limit source.toList := by
    rcases of_bind_eq_error h with hrun | ⟨s, hrun, hend⟩
    · exact explains_of_run hrun
    · exact explains_of_finish hrun hend
  exact ⟨String.length_toList ▸ hexplains.offset_le, hexplains⟩

theorem explains_of_parse_eq_error_parentheses :
    (parse 1 "(1 + 2" = .error ⟨.unterminatedGroup, 0⟩ ∧
      openParentheses "(1 + 2".toList = [0] ∧ Viable 1 "(1 + 2".toList) ∧
    (parse 1 "(1 + 2))" = .error ⟨.unexpectedClose, 7⟩ ∧
      Viable 1 "(1 + 2)".toList ∧ ¬ Viable 1 "(1 + 2))".toList) := by
  have hopen : parse 1 "(1 + 2" = .error ⟨.unterminatedGroup, 0⟩ := rfl
  have hclose : parse 1 "(1 + 2))" = .error ⟨.unexpectedClose, 7⟩ := rfl
  obtain ⟨-, -, -, hviable⟩ := explains_of_parse_eq_error hopen
  obtain ⟨-, c, -, -, hbefore, hwrong⟩ := explains_of_parse_eq_error hclose
  exact ⟨⟨hopen, rfl, hviable⟩, hclose, hbefore, hwrong⟩

end Abacus.Line
