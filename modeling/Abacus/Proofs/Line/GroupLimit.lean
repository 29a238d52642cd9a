import Mathlib.Data.Nat.Find
import Abacus.Proofs.Line.Blame

/-! # The limit on groups

Under two limits a line is read in the same way up to the first parenthesis that
is beyond the lower limit. There the lower limit ends the scan; where there is no
such parenthesis, the limits make no difference.
-/

namespace Abacus.Line

variable {limit limit' : Int} {s : Scan} {c : Char} {cs : List Char} {p depth : Nat}

/-- The scan comes to a parenthesis where an operand is due and so many groups are open. -/
def Meets (limit : Int) (cs : List Char) (p depth : Nat) : Prop :=
  cs[p]? = some '(' ∧ ∃ s, Scan.run limit {} (cs.take p) = .ok s ∧ s.phase = .operand ∧
    s.frames.length = depth

/-- The first parenthesis with which groups would nest deeper than the limit. -/
structure FirstBeyond (limit limit' : Int) (cs : List Char) (p : Nat) : Prop where
  beyond : ∃ depth, Meets limit' cs p depth ∧ limit ≤ depth
  within : ∀ q < p, ∀ depth, Meets limit' cs q depth → depth < limit

theorem Meets.lt_length (h : Meets limit cs p depth) : p < cs.length :=
  (List.getElem?_eq_some_iff.mp h.1).1

theorem Meets.append (h : Meets limit cs p depth) (more : List Char) :
    Meets limit (cs ++ more) p depth := by
  have hlt := h.lt_length
  obtain ⟨hopen, s, hs, hphase, hdepth⟩ := h
  refine ⟨?_, s, ?_, hphase, hdepth⟩
  · rwa [List.getElem?_append_left hlt]
  · rwa [List.take_append_of_le_length hlt.le]

theorem meets_concat (hs : Scan.run limit {} cs = .ok s) (hphase : s.phase = .operand) :
    Meets limit (cs ++ ['(']) cs.length s.frames.length :=
  ⟨List.getElem?_concat_length, s, by rwa [List.take_left], hphase, rfl⟩

namespace Scan

def Exceeds (limit : Int) (s : Scan) (c : Char) : Prop :=
  s.phase = .operand ∧ c = '(' ∧ Depth.effective limit ≤ s.frames.length

theorem operand_of_no_room (h : Depth.effective limit ≤ s.frames.length) :
    s.operand limit '(' = .error ⟨.groupTooDeep limit, s.offset⟩ := by
  simp only [operand, h]
  rfl

theorem operand_of_room (h : ¬ Depth.effective limit ≤ s.frames.length) :
    s.operand limit '(' = .ok s.openGroup := by
  simp only [operand, h]
  rfl

theorem operand_eq_operand (hc : c ≠ '(') : s.operand limit c = s.operand limit' c := by
  simp only [operand, hc, if_false]

theorem step_of_exceeds (h : s.Exceeds limit c) :
    s.step limit c = .error ⟨.groupTooDeep limit, s.offset⟩ := by
  obtain ⟨hphase, rfl, hdepth⟩ := h
  simp only [step, hphase]
  exact operand_of_no_room hdepth

theorem step_eq_step (hlimit : limit ≤ limit') (h : ¬ s.Exceeds limit c) :
    s.step limit c = s.step limit' c := by
  unfold step
  split
  · next hphase =>
    by_cases hc : c = '('
    · subst hc
      have hdepth : ¬ Depth.effective limit ≤ s.frames.length := fun hd => h ⟨hphase, rfl, hd⟩
      have hdepth' : ¬ Depth.effective limit' ≤ s.frames.length := by
        simp only [Depth.effective] at hdepth ⊢
        omega
      rw [operand_of_room hdepth, operand_of_room hdepth']
    · exact operand_eq_operand hc
  · rfl
  · rfl
  · rfl

theorem blames_of_step {e : Error} {n : Int} (h : s.step limit c = .error e)
    (hfault : e.fault = .groupTooDeep n) : e.offset = s.offset ∧ n = limit := by
  obtain ⟨-, hs | ⟨-, hoffset, hblames⟩⟩ := step_eq_error h
  · obtain ⟨start, text, -, rfl⟩ := settle_eq_error hs
    cases hfault
  · rw [hfault] at hblames
    exact ⟨hoffset, hblames.2⟩

theorem exceeds_of_step {e : Error} {n : Int} (h : s.step limit c = .error e)
    (hfault : e.fault = .groupTooDeep n) : s.Exceeds limit c := by
  by_contra hexceeds
  have hnext : s.step (limit + 1) c = .error e :=
    (step_eq_step (Int.le_add_one (Int.le_refl limit)) hexceeds).symm.trans h
  have hlimit := (blames_of_step h hfault).2
  have hlimit' := (blames_of_step hnext hfault).2
  omega

theorem run_eq_run (hlimit : limit ≤ limit') (hlimit' : limit' ≤ Depth.greatest)
    (h : ∀ p depth, Meets limit' cs p depth → depth < limit) :
    Scan.run limit {} cs = Scan.run limit' {} cs := by
  induction cs using List.reverseRecOn with
  | nil => rfl
  | append_singleton cs c ih =>
    rw [run_concat, run_concat, ih fun p depth hp => h p depth (hp.append [c])]
    cases hs : Scan.run limit' {} cs with
    | error e => rfl
    | ok s =>
      refine step_eq_step hlimit ?_
      rintro ⟨hphase, rfl, hdepth⟩
      rw [Depth.effective_of_le (Int.le_trans hlimit hlimit')] at hdepth
      exact absurd (h _ _ (meets_concat hs hphase)) (Int.not_lt.mpr hdepth)

theorem run_of_exceeds (hs : Scan.run limit {} (cs.take p) = .ok s) (hopen : cs[p]? = some '(')
    (h : s.Exceeds limit '(') : Scan.run limit {} cs = .error ⟨.groupTooDeep limit, p⟩ := by
  obtain ⟨hlt, hget⟩ := List.getElem?_eq_some_iff.mp hopen
  have hoffset : s.offset = p := by
    rw [(tracks_run hs).offset, List.length_take_of_le hlt.le]
  rw [← List.take_append_drop p cs, run_append, hs, List.drop_eq_getElem_cons hlt, hget]
  change (s.step limit '(').bind (Scan.run limit · (cs.drop (p + 1))) = _
  rw [step_of_exceeds h, hoffset]
  rfl

theorem run_of_firstBeyond (hlimit : limit ≤ limit') (hlimit' : limit' ≤ Depth.greatest)
    (h : FirstBeyond limit limit' cs p) :
    Scan.run limit {} cs = .error ⟨.groupTooDeep limit, p⟩ := by
  obtain ⟨⟨depth, hmeets, hdepth⟩, hwithin⟩ := h
  have hlt := hmeets.lt_length
  obtain ⟨hopen, s, hs, hphase, rfl⟩ := hmeets
  have hbefore : Scan.run limit {} (cs.take p) = .ok s := by
    rw [← hs]
    refine run_eq_run hlimit hlimit' fun q depth hq => ?_
    have hqp : q < p := (List.length_take_of_le hlt.le) ▸ hq.lt_length
    have hq : Meets limit' cs q depth := List.take_append_drop p cs ▸ hq.append (cs.drop p)
    exact hwithin q hqp depth hq
  refine run_of_exceeds hbefore hopen ⟨hphase, rfl, ?_⟩
  rwa [Depth.effective_of_le (Int.le_trans hlimit hlimit')]

theorem run_of_meets (hlimit : limit ≤ Depth.greatest) (h : Meets limit cs p depth) :
    (depth < limit ∧ ∃ s, Scan.run limit {} (cs.take (p + 1)) = .ok s) ∨
      (limit ≤ depth ∧ Scan.run limit {} cs = .error ⟨.groupTooDeep limit, p⟩) := by
  obtain ⟨hopen, s, hs, hphase, rfl⟩ := h
  by_cases hdepth : limit ≤ s.frames.length
  · have hexceeds : s.Exceeds limit '(' := by
      refine ⟨hphase, rfl, ?_⟩
      rwa [Depth.effective_of_le hlimit]
    exact Or.inr ⟨hdepth, run_of_exceeds hs hopen hexceeds⟩
  · refine Or.inl ⟨Int.not_le.mp hdepth, s.openGroup, ?_⟩
    rw [List.take_add_one, hopen, Option.toList_some, run_concat, hs]
    simp only [Except.bind, step, hphase]
    refine operand_of_room ?_
    rwa [Depth.effective_of_le hlimit]

/-- A scan that finds a group too many has come to a parenthesis with too many groups open. -/
theorem meets_of_run {e : Error} {n : Int} (hlimit : limit ≤ Depth.greatest)
    (h : Scan.run limit {} cs = .error e) (hfault : e.fault = .groupTooDeep n) :
    ∃ depth, Meets limit cs e.offset depth ∧ limit ≤ depth := by
  obtain ⟨before, c, after, s, rfl, hs, hstep⟩ := run_eq_error h
  obtain ⟨hphase, rfl, hdepth⟩ := exceeds_of_step hstep hfault
  have hoffset : e.offset = s.offset := (blames_of_step hstep hfault).1
  have hmeets := (meets_concat hs hphase).append after
  rw [List.append_assoc, ← (tracks_run hs).offset, ← hoffset] at hmeets
  rw [Depth.effective_of_le hlimit] at hdepth
  exact ⟨s.frames.length, hmeets, hdepth⟩

end Scan

section

variable {source : String}

theorem run_of_parse_eq_groupTooDeep {e : Error} {n : Int} (h : parse limit source = .error e)
    (hfault : e.fault = .groupTooDeep n) : Scan.run limit {} source.toList = .error e := by
  rcases of_bind_eq_error h with h | ⟨s, -, h⟩
  · exact h
  · rcases Scan.finish_eq_error h with h | ⟨-, ⟨h, -⟩ | ⟨h, -⟩⟩
    · obtain ⟨start, text, -, rfl⟩ := Scan.settle_eq_error h
      cases hfault
    · cases h.symm.trans hfault
    · cases h.symm.trans hfault

theorem parse_of_firstBeyond (hlimit : limit ≤ limit') (hlimit' : limit' ≤ Depth.greatest)
    (h : FirstBeyond limit limit' source.toList p) :
    parse limit source = .error ⟨.groupTooDeep limit, p⟩ := by
  rw [parse, Scan.run_of_firstBeyond hlimit hlimit' h]
  rfl

theorem exists_firstBeyond (h : ∃ p depth, Meets limit' cs p depth ∧ limit ≤ depth) :
    ∃ p, FirstBeyond limit limit' cs p := by
  classical
  refine ⟨Nat.find h, Nat.find_spec h, fun q hq depth hmeets => ?_⟩
  exact Int.not_le.mp fun hdepth => Nat.find_min h hq ⟨depth, hmeets, hdepth⟩

theorem parse_eq_parse (hlimit : limit ≤ limit') (hlimit' : limit' ≤ Depth.greatest)
    (h : ¬ ∃ p depth, Meets limit' source.toList p depth ∧ limit ≤ depth) :
    parse limit source = parse limit' source := by
  rw [parse, parse, Scan.run_eq_run hlimit hlimit' fun p depth hmeets =>
    Int.not_le.mp fun hdepth => h ⟨p, depth, hmeets, hdepth⟩]

theorem firstBeyond_of_parse (hlimit : limit ≤ limit') (hlimit' : limit' ≤ Depth.greatest)
    (h : parse limit source = .error ⟨.groupTooDeep limit, p⟩) :
    FirstBeyond limit limit' source.toList p := by
  have hbeyond : ∃ p depth, Meets limit' source.toList p depth ∧ limit ≤ depth := by
    by_contra hnone
    -- The scan under the higher limit then ends in this fault too, so it comes to such a group.
    have h' := (parse_eq_parse hlimit hlimit' hnone).symm.trans h
    obtain ⟨depth, hmeets, hdepth⟩ :=
      Scan.meets_of_run hlimit' (run_of_parse_eq_groupTooDeep h' rfl) rfl
    exact hnone ⟨p, depth, hmeets, Int.le_trans hlimit hdepth⟩
  obtain ⟨q, hq⟩ := exists_firstBeyond hbeyond
  cases (parse_of_firstBeyond hlimit hlimit' hq).symm.trans h
  exact hq

/--
The lower of two limits makes a difference just where the scan under the higher one comes to a
parenthesis beyond it, and then faults the first of these. So a line that is read and a line with
any other fault are the same to the higher limit.
-/
theorem parse_of_limit_le (hlimit : limit ≤ limit') (hlimit' : limit' ≤ Depth.greatest)
    (source : String) :
    (parse limit source = parse limit' source ∨
      ∃ p, FirstBeyond limit limit' source.toList p ∧
        parse limit source = .error ⟨.groupTooDeep limit, p⟩) ∧
    (∀ p, parse limit source = .error ⟨.groupTooDeep limit, p⟩ ↔
      FirstBeyond limit limit' source.toList p) ∧
    ((∃ p, parse limit source = .error ⟨.groupTooDeep limit, p⟩) ↔
      ∃ p depth, Meets limit' source.toList p depth ∧ limit ≤ depth) ∧
    (∀ p depth, Meets limit' source.toList p depth →
      (depth < limit' ∧ ∃ s, Scan.run limit' {} (source.toList.take (p + 1)) = .ok s) ∨
        (limit' ≤ depth ∧ parse limit' source = .error ⟨.groupTooDeep limit', p⟩)) ∧
    (∀ ts, parse limit source = .ok ts → parse limit' source = .ok ts) ∧
    ∀ e, parse limit source = .error e → (∀ n, e.fault ≠ .groupTooDeep n) →
      parse limit' source = .error e := by
  have hfirst (p : Nat) : parse limit source = .error ⟨.groupTooDeep limit, p⟩ ↔
      FirstBeyond limit limit' source.toList p :=
    ⟨firstBeyond_of_parse hlimit hlimit', parse_of_firstBeyond hlimit hlimit'⟩
  have hcases : parse limit source = parse limit' source ∨
      ∃ p, FirstBeyond limit limit' source.toList p ∧
        parse limit source = .error ⟨.groupTooDeep limit, p⟩ := by
    by_cases h : ∃ p depth, Meets limit' source.toList p depth ∧ limit ≤ depth
    · obtain ⟨p, hp⟩ := exists_firstBeyond h
      exact Or.inr ⟨p, hp, (hfirst p).mpr hp⟩
    · exact Or.inl (parse_eq_parse hlimit hlimit' h)
  refine ⟨hcases, hfirst, ?_, ?_, ?_, ?_⟩
  · simp only [hfirst]
    exact ⟨fun ⟨p, h⟩ => ⟨p, h.beyond⟩, exists_firstBeyond⟩
  · intro p depth h
    refine (Scan.run_of_meets hlimit' h).imp_right (And.imp_right fun h => ?_)
    rw [parse, h]
    rfl
  · intro ts h
    rcases hcases with hsame | ⟨p, -, herror⟩
    · exact hsame.symm.trans h
    · cases herror.symm.trans h
  · intro e h hfault
    rcases hcases with hsame | ⟨p, -, herror⟩
    · exact hsame.symm.trans h
    · cases herror.symm.trans h
      exact absurd rfl (hfault limit)

/-- Where one group may be open `(1)+((2` is too deep; where two may, it lacks a `)`. -/
theorem parse_of_limit_le_one_two :
    (1 : Int) ≤ 2 ∧ (2 : Int) ≤ Depth.greatest ∧ FirstBeyond 1 2 "(1)+((2".toList 5 ∧
      parse 2 "(1)+((2" = .error ⟨.unterminatedGroup, 5⟩ :=
  have h : (1 : Int) ≤ 2 := by decide
  have h' : (2 : Int) ≤ Depth.greatest := by decide
  ⟨h, h', ((parse_of_limit_le h h' "(1)+((2").2.1 5).mp rfl, rfl⟩

end

end Abacus.Line
