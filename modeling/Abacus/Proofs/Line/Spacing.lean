import Abacus.Proofs.Line.Blame

/-! # White space in a line

White space in a line that is read may be taken out anywhere, and put in anywhere
but inside a literal or a name. It moves what follows it, and where things stand
matters to faults only.
-/

namespace Abacus.Line

variable {limit : Int} {s t : Scan} {c : Char} {cs ds before : List Char} {ts : List Token}

def Phase.unplaced : Phase → Phase
  | .literal _ text => .literal 0 text
  | phase => phase

namespace Scan

/-- What a scan has read, without the offsets. -/
def unplaced (s : Scan) : Scan where
  frames := s.frames.map fun frame => { frame with start := 0 }
  tokens := s.tokens
  phase := s.phase.unplaced

theorem map_unplaced_operand (limit : Int) (s : Scan) (c : Char) :
    (s.operand limit c).toOption.map unplaced =
      (s.unplaced.operand limit c).toOption.map unplaced := by
  have hlength : s.unplaced.frames.length = s.frames.length := List.length_map _
  simp only [operand, hlength]
  split_ifs <;> simp [Except.toOption, fail, advance, openGroup, unplaced, Phase.unplaced]

theorem map_unplaced_closeGroup (s : Scan) :
    s.closeGroup.toOption.map unplaced = s.unplaced.closeGroup.toOption.map unplaced := by
  obtain ⟨i, frames, tokens, phase⟩ := s
  cases frames with
  | nil => rfl
  | cons frame frames => simp [closeGroup, Except.toOption, unplaced, Phase.unplaced]

theorem map_unplaced_assign (s : Scan) :
    s.assign.toOption.map unplaced = s.unplaced.assign.toOption.map unplaced := by
  obtain ⟨i, frames, tokens, phase⟩ := s
  cases frames with
  | nil =>
    simp only [assign, unplaced, List.map_nil]
    split <;> rfl
  | cons frame frames => rfl

theorem map_unplaced_operator (s : Scan) (c : Char) :
    (s.operator c).toOption.map unplaced = (s.unplaced.operator c).toOption.map unplaced := by
  by_cases hspace : isSpace c
  · simp [operator, hspace, Except.toOption, advance, unplaced, Phase.unplaced]
  cases hop : Operator.ofSymbol? c with
  | some op =>
    simp [operator, hspace, hop, Except.toOption, advance, push, unplaced, Phase.unplaced]
  | none =>
    simp only [operator, hspace, hop, Bool.false_eq_true, if_false]
    split_ifs
    · exact map_unplaced_closeGroup s
    · exact map_unplaced_assign s
    · rfl

theorem map_unplaced_step (limit : Int) (s : Scan) (c : Char) :
    (s.step limit c).toOption.map unplaced = (s.unplaced.step limit c).toOption.map unplaced := by
  obtain ⟨i, frames, tokens, phase⟩ := s
  cases phase with
  | operand => exact map_unplaced_operand limit _ c
  | operator => exact map_unplaced_operator _ c
  | literal start text =>
    by_cases hc : continuesLiteral c
    · simp [step, hc, Except.toOption, advance, unplaced, Phase.unplaced]
    cases hn : literal? text.reverse with
    | none => simp [step, hc, settle, hn, Except.bind, Except.toOption, unplaced, Phase.unplaced]
    | some n =>
      simp only [step, hc, settle, hn, unplaced, Phase.unplaced]
      exact map_unplaced_operator ⟨i, frames, .value n :: tokens, .operator⟩ c
  | name text =>
    by_cases hc : c.isAlphanum
    · simp [step, hc, Except.toOption, advance, unplaced, Phase.unplaced]
    · simp only [step, hc, settle, unplaced, Phase.unplaced]
      exact map_unplaced_operator
        ⟨i, frames, .identifier (String.ofList text.reverse) :: tokens, .operator⟩ c

theorem toOption_finish (s : Scan) : s.finish.toOption = s.unplaced.finish.toOption := by
  obtain ⟨i, frames, tokens, phase⟩ := s
  cases phase with
  | operand | operator | name => cases frames <;> rfl
  | literal start text =>
    simp only [finish, settle, unplaced, Phase.unplaced]
    cases literal? text.reverse with
    | none => rfl
    | some n => cases frames <;> rfl

theorem toOption_read (limit : Int) (s : Scan) (cs : List Char) :
    (s.read limit cs).toOption = (s.unplaced.read limit cs).toOption := by
  induction cs generalizing s with
  | nil => exact toOption_finish s
  | cons c cs ih =>
    rw [read_cons, read_cons]
    have hstep := map_unplaced_step limit s c
    cases h : s.step limit c with
    | error e =>
      cases h' : s.unplaced.step limit c with
      | error e' => rfl
      | ok t =>
        rw [h, h'] at hstep
        cases hstep
    | ok s' =>
      cases h' : s.unplaced.step limit c with
      | error e' =>
        rw [h, h'] at hstep
        cases hstep
      | ok t =>
        rw [h, h'] at hstep
        have hst : s'.unplaced = t.unplaced := Option.some.inj hstep
        exact (ih s').trans (hst ▸ (ih t).symm)

theorem read_eq_ok_of_toOption (h : (s.read limit cs).toOption = (t.read limit ds).toOption)
    (hs : s.read limit cs = .ok ts) : t.read limit ds = .ok ts := by
  rw [hs] at h
  cases ht : t.read limit ds with
  | error e =>
    rw [ht] at h
    cases h
  | ok us =>
    rw [ht] at h
    rw [Option.some.inj h]

theorem not_continues_of_isSpace (phase : Phase) (hc : isSpace c) : ¬ phase.continues c := by
  rcases eq_of_isSpace hc with rfl | rfl | rfl | rfl <;> cases phase <;> exact Bool.false_ne_true

theorem not_continues_of_operator (phase : Phase) (h : s.operator c = .ok t) :
    ¬ phase.continues c := by
  rcases operator_eq_ok h with ⟨hc, -⟩ | ⟨op, rfl, -⟩ | ⟨rfl, -⟩ | ⟨rfl, -⟩
  · exact not_continues_of_isSpace phase hc
  · cases op <;> cases phase <;> exact Bool.false_ne_true
  · cases phase <;> exact Bool.false_ne_true
  · cases phase <;> exact Bool.false_ne_true

theorem phase_of_settle (h : s.settle = .ok t) : t.phase = .operand ∨ t.phase = .operator := by
  rcases (settle_eq_ok h).2.2 with ⟨hphase, rfl⟩ | hphase
  · exact Or.inl hphase
  · exact Or.inr hphase

theorem toOption_read_space (limit : Int) (hc : isSpace c)
    (hstop : ∀ d ∈ cs.head?, ¬ s.phase.continues d) :
    (s.read limit (c :: cs)).toOption = (s.read limit cs).toOption := by
  have hspace : ∀ d ∈ (c :: cs).head?, ¬ s.phase.continues d := by
    intro d hd
    cases hd
    exact not_continues_of_isSpace s.phase hc
  rw [read_eq_settle hspace, read_eq_settle hstop]
  cases hs : s.settle with
  | error e => rfl
  | ok t =>
    obtain ⟨i, frames, tokens, phase⟩ := t
    obtain ⟨k, hk⟩ :=
      read_blank limit frames tokens (phase_of_settle hs) ((Blank.refl cs).cons hc) i
    change (read limit _ (c :: cs)).toOption = (read limit _ cs).toOption
    rw [hk, toOption_read, toOption_read limit ⟨i, frames, tokens, phase⟩]
    rfl

theorem not_continues_of_read_space (hc : isSpace c) (h : s.read limit (c :: cs) = .ok ts) :
    ∀ d ∈ cs.head?, ¬ s.phase.continues d := by
  intro d hd hcontinues
  cases cs with
  | nil => cases hd
  | cons _ cs =>
    cases hd
    rw [read_cons] at h
    obtain ⟨t, hstep, h⟩ := of_bind_eq_ok h
    rcases step_eq_ok hstep with ⟨hc', -⟩ | ⟨hphase, -⟩ | ⟨s₁, -, hoperator⟩
    · exact not_continues_of_isSpace s.phase hc hc'
    · rw [hphase] at hcontinues
      cases hcontinues
    · have ht : t = s₁.advance .operator := by
        simp only [operator, hc, if_true] at hoperator
        exact (Except.ok.inj hoperator).symm
      subst ht
      rw [read_cons] at h
      obtain ⟨t, hstep, -⟩ := of_bind_eq_ok h
      exact not_continues_of_operator s.phase hstep hcontinues

theorem exists_run_of_parse (h : parse limit (String.ofList (before ++ cs)) = .ok ts) :
    ∃ s, Scan.run limit {} before = .ok s ∧ s.read limit cs = .ok ts := by
  cases hrun : Scan.run limit {} before with
  | error e => cases (parse_of_run_eq_error hrun cs).symm.trans h
  | ok s => exact ⟨s, rfl, (parse_of_run hrun cs).symm.trans h⟩

end Scan

def visible (cs : List Char) : List Char :=
  cs.filter (!isSpace ·)

theorem parse_of_space (hc : isSpace c)
    (h : parse limit (String.ofList (before ++ c :: cs)) = .ok ts) :
    parse limit (String.ofList (before ++ cs)) = .ok ts := by
  obtain ⟨s, hs, hread⟩ := Scan.exists_run_of_parse h
  have hstop := Scan.not_continues_of_read_space hc hread
  rw [Scan.parse_of_run hs]
  exact Scan.read_eq_ok_of_toOption (Scan.toOption_read_space limit hc hstop) hread

/-- What is left out of a line is white space if all that is visible stays. -/
theorem parse_of_sublist (hsub : ds.Sublist cs) (hvisible : visible ds = visible cs)
    (h : parse limit (String.ofList (before ++ cs)) = .ok ts) :
    parse limit (String.ofList (before ++ ds)) = .ok ts := by
  induction hsub generalizing before with
  | slnil => exact h
  | @cons ds cs c hsub ih =>
    by_cases hc : isSpace c
    · have hcons : visible (c :: cs) = visible cs := List.filter_cons_of_neg (by simp [hc])
      exact ih (hvisible.trans hcons) (parse_of_space hc h)
    · have hcons : visible (c :: cs) = c :: visible cs := List.filter_cons_of_pos (by simp [hc])
      have hlength : (visible ds).length ≤ (visible cs).length := (hsub.filter _).length_le
      rw [hvisible, hcons, List.length_cons] at hlength
      omega
  | @cons_cons ds cs c hsub ih =>
    have hvisible : visible ds = visible cs := by
      by_cases hc : isSpace c
      · simpa [visible, hc] using hvisible
      · simpa [visible, hc] using hvisible
    rw [List.append_cons] at h ⊢
    exact ih hvisible h

theorem parse_of_visible_eq {source source' : String} {ts' : List Token}
    (h : parse limit source = .ok ts) (h' : parse limit source' = .ok ts')
    (hvisible : visible source'.toList = visible source.toList) : ts' = ts := by
  have hleast {source : String} {ts : List Token} (h : parse limit source = .ok ts) :
      parse limit (String.ofList (visible source.toList)) = .ok ts := by
    have hself : visible (visible source.toList) = visible source.toList := by
      simp [visible]
    have hstart : parse limit (String.ofList ([] ++ source.toList)) = .ok ts := by
      rwa [List.nil_append, String.ofList_toList]
    rw [← List.nil_append (visible _)]
    exact parse_of_sublist List.filter_sublist hself hstart
  have hboth := (hleast h').symm.trans (hvisible ▸ hleast h)
  exact Except.ok.inj hboth

/-- The text with more before each of its characters, and at its end. -/
def spread (gaps : Nat → List Char) : Nat → List Char → List Char
  | p, [] => gaps p
  | p, c :: cs => gaps p ++ c :: spread gaps (p + 1) cs

/--
Strictly inside a literal or a name, which begins where an operand is due and goes on as far as it
can.
-/
def Inside (limit : Int) (cs : List Char) (p : Nat) : Prop :=
  ∃ before c run rest, cs = before ++ (c :: run ++ rest) ∧
    before.length < p ∧ p < before.length + (c :: run).length ∧
    (∃ s, Scan.run limit {} before = .ok s ∧ s.phase = .operand) ∧
    (startsLiteral c ∧ Run continuesLiteral run rest ∨ c.isAlpha ∧ Run Char.isAlphanum run rest)

theorem Inside.exists_continues {p : Nat} (h : Inside limit cs p) :
    ∃ d, cs[p]? = some d ∧ (continuesLiteral d ∨ d.isAlphanum) := by
  obtain ⟨before, c, run, rest, rfl, hlow, hhigh, -, hword⟩ := h
  rw [List.length_cons] at hhigh
  have hk : p - before.length - 1 < run.length := by omega
  refine ⟨run[p - before.length - 1], ?_, ?_⟩
  · rw [List.getElem?_append_right hlow.le, List.cons_append, List.getElem?_cons,
      if_neg (by omega), List.getElem?_append_left hk, List.getElem?_eq_getElem hk]
  · rcases hword with ⟨-, hrun⟩ | ⟨-, hrun⟩
    · exact Or.inl (hrun.1 _ (List.getElem_mem hk))
    · exact Or.inr (hrun.1 _ (List.getElem_mem hk))

def Phase.begins : Phase → Char → Bool
  | .literal _ _, c => startsLiteral c
  | .name _, c => c.isAlpha
  | .operand, _ | .operator, _ => false

namespace Scan

theorem phase_extend (h : s.phase.continues c) : (s.extend c).phase.continues = s.phase.continues ∧
    (s.extend c).phase.begins = s.phase.begins := by
  obtain ⟨i, frames, tokens, phase⟩ := s
  cases phase with
  | operand | operator => cases h
  | literal | name => exact ⟨rfl, rfl⟩

theorem not_continues_of_phase {phase : Phase} (h : phase = .operand ∨ phase = .operator) :
    ¬ phase.continues c := by
  rcases h with rfl | rfl <;> exact Bool.false_ne_true

theorem exists_word_of_run {d : Char} (h : Scan.run limit {} cs = .ok s)
    (hd : s.phase.continues d) : ∃ before b run, cs = before ++ b :: run ∧
      (∃ s, Scan.run limit {} before = .ok s ∧ s.phase = .operand) ∧
      s.phase.begins b ∧ ∀ e ∈ run, s.phase.continues e := by
  induction cs using List.reverseRecOn generalizing s d with
  | nil =>
    cases h
    cases hd
  | append_singleton cs e ih =>
    rw [run_concat] at h
    obtain ⟨t, ht, hstep⟩ := of_bind_eq_ok h
    rcases step_eq_ok hstep with ⟨he, rfl⟩ | ⟨hphase, hoperand⟩ | ⟨s₁, -, hoperator⟩
    · obtain ⟨before, b, run, rfl, hbefore, hb, hrun⟩ := ih ht he
      obtain ⟨hcontinues, hbegins⟩ := phase_extend he
      rw [hcontinues, hbegins]
      refine ⟨before, b, run ++ [e], by simp, hbefore, hb, ?_⟩
      exact List.forall_mem_append.mpr ⟨hrun, List.forall_mem_singleton.mpr he⟩
    · rcases operand_eq_ok hoperand with ⟨-, rfl⟩ | ⟨he, rfl⟩ | ⟨he, rfl⟩ | ⟨-, rfl⟩
      · cases hd
      · exact ⟨cs, e, [], rfl, ⟨t, ht, hphase⟩, he, by simp⟩
      · exact ⟨cs, e, [], rfl, ⟨t, ht, hphase⟩, he, by simp⟩
      · cases hd
    · exact absurd hd (not_continues_of_phase (phase_eq_of_operator hoperator))

theorem inside_of_continues (h : Scan.run limit {} before = .ok s) (hc : s.phase.continues c)
    (cs : List Char) : Inside limit (before ++ c :: cs) before.length := by
  obtain ⟨before, b, run, rfl, hbefore, hb, hrun⟩ := exists_word_of_run h hc
  have hword : Run s.phase.continues (run ++ (c :: cs).takeWhile s.phase.continues)
      ((c :: cs).dropWhile s.phase.continues) := by
    refine ⟨List.forall_mem_append.mpr ⟨hrun, fun d hd => List.mem_takeWhile_imp hd⟩, ?_⟩
    intro d hd
    have hstop := List.head?_dropWhile_not s.phase.continues (c :: cs)
    rw [Option.mem_def.mp hd] at hstop
    exact Bool.eq_false_iff.mp hstop
  refine ⟨before, b, run ++ (c :: cs).takeWhile s.phase.continues,
    (c :: cs).dropWhile s.phase.continues, ?_, ?_, ?_, hbefore, ?_⟩
  · simp [List.takeWhile_append_dropWhile]
  · simp
  · simp [hc]
  · obtain ⟨i, frames, tokens, phase⟩ := s
    cases phase with
    | operand | operator => cases hc
    | literal => exact Or.inl ⟨hb, hword⟩
    | name => exact Or.inr ⟨hb, hword⟩

theorem read_blanks {ws : List Char} (hws : ∀ c ∈ ws, isSpace c)
    (hstop : ∀ d ∈ cs.head?, ¬ s.phase.continues d) (h : s.read limit cs = .ok ts) :
    s.read limit (ws ++ cs) = .ok ts := by
  induction ws with
  | nil => exact h
  | cons c ws ih =>
    obtain ⟨hc, hws⟩ := List.forall_mem_cons.mp hws
    have hstop : ∀ d ∈ (ws ++ cs).head?, ¬ s.phase.continues d := by
      cases ws with
      | nil => exact hstop
      | cons d ws =>
        intro d' hd'
        cases hd'
        exact not_continues_of_isSpace s.phase (hws d List.mem_cons_self)
    exact read_eq_ok_of_toOption (toOption_read_space limit hc hstop).symm (ih hws)

end Scan

theorem parse_of_spread {gaps : Nat → List Char} (hgaps : ∀ p, ∀ c ∈ gaps p, isSpace c)
    (hinside : ∀ p, Inside limit (before ++ cs) p → gaps p = [])
    (h : parse limit (String.ofList (before ++ cs)) = .ok ts) :
    parse limit (String.ofList (before ++ spread gaps before.length cs)) = .ok ts := by
  induction cs generalizing before with
  | nil =>
    obtain ⟨s, hs, hread⟩ := Scan.exists_run_of_parse h
    rw [Scan.parse_of_run hs, spread, ← List.append_nil (gaps _)]
    exact Scan.read_blanks (hgaps _) (by simp) hread
  | cons c cs ih =>
    have hrest : parse limit
        (String.ofList (before ++ c :: spread gaps (before.length + 1) cs)) = .ok ts := by
      have hlength : (before ++ [c]).length = before.length + 1 := by simp
      rw [List.append_cons] at hinside h ⊢
      rw [← hlength]
      exact ih hinside h
    obtain ⟨s, hs, hread⟩ := Scan.exists_run_of_parse hrest
    rw [Scan.parse_of_run hs, spread]
    by_cases hc : s.phase.continues c
    · rw [hinside _ (Scan.inside_of_continues hs hc cs)]
      exact hread
    · refine Scan.read_blanks (hgaps _) ?_ hread
      intro d hd
      cases hd
      exact hc

/--
A line that is read is read to the same tokens when any white space is taken out of it, and when
any is put in where it does not part a literal or a name. So the tokens of a line that is read are
those of all such lines with the same other characters.
-/
theorem parse_of_respaced {source : String} (h : parse limit source = .ok ts) :
    (∀ cs, cs.Sublist source.toList → visible cs = visible source.toList →
      parse limit (String.ofList cs) = .ok ts) ∧
    (∀ gaps : Nat → List Char, (∀ p, ∀ c ∈ gaps p, isSpace c) →
      (∀ p, Inside limit source.toList p → gaps p = []) →
      parse limit (String.ofList (spread gaps 0 source.toList)) = .ok ts) ∧
    ∀ source' ts', parse limit source' = .ok ts' →
      visible source'.toList = visible source.toList → ts' = ts := by
  have hstart : parse limit (String.ofList ([] ++ source.toList)) = .ok ts := by
    rwa [List.nil_append, String.ofList_toList]
  refine ⟨?_, ?_, ?_⟩
  · intro cs hsub hvisible
    rw [← List.nil_append cs]
    exact parse_of_sublist hsub hvisible hstart
  · intro gaps hgaps hinside
    rw [← List.nil_append (spread _ _ _)]
    exact parse_of_spread hgaps hinside hstart
  · intro source' ts' h' hvisible
    exact parse_of_visible_eq h h' hvisible

/-- The sign of `-2` stays a sign when the space before it goes, and when more comes. -/
theorem parse_of_respaced_sign :
    let ts : List Token := [.value (.integer 1), .operator .subtract, .value (.integer (-2))]
    parse 0 "1 - -2" = .ok ts ∧ parse 0 "1--2" = .ok ts ∧ parse 0 "1 - \t\n-2" = .ok ts := by
  intro ts
  have h : parse 0 "1 - -2" = .ok ts := rfl
  obtain ⟨hout, hin, -⟩ := parse_of_respaced h
  refine ⟨h, ?_, ?_⟩
  · exact hout "1--2".toList (.cons_cons _ (.cons _ (.cons_cons _ (.cons _ (.refl _))))) rfl
  · refine hin (fun p => if p = 4 then ['\t', '\n'] else []) (fun p c hc => ?_) fun p hp => ?_
    · split at hc
      · rcases List.mem_cons.mp hc with rfl | hc
        · rfl
        · obtain rfl := List.mem_singleton.mp hc
          rfl
      · cases hc
    · refine if_neg ?_
      rintro rfl
      obtain ⟨d, hd, hcontinues⟩ := hp.exists_continues
      obtain rfl : '-' = d := Option.some.inj hd
      exact absurd hcontinues (by decide)

end Abacus.Line
