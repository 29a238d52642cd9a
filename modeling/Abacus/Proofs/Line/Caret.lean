import Abacus.Proofs.Line.Blame

/-! # The caret of a diagnostic

The last line of a diagnostic holds a caret below the character that is to blame,
which is never among the line ends that are left out. The source is shown as it
is, so a line feed inside it leaves less than the source above the caret, and
the caret stands too far to the right.
-/

namespace Abacus

theorem exists_splitOn_eq (cs : List Char) : ∃ before earlier last,
    cs.splitOn '\n' = before ++ [last] ∧ cs = earlier ++ last ∧ (earlier = [] ↔ '\n' ∉ cs) := by
  by_cases h : '\n' ∈ cs
  · obtain ⟨after, before, hreverse, hafter⟩ :=
      List.eq_append_cons_of_mem (List.mem_reverse.mpr h)
    have hcs : cs = before.reverse ++ '\n' :: after.reverse := by
      rw [← List.reverse_reverse cs, hreverse]
      simp
    refine ⟨before.reverse.splitOn '\n', before.reverse ++ ['\n'], after.reverse, ?_, ?_, ?_⟩
    · rw [hcs, List.splitOn_append_cons_self,
        List.splitOn_eq_singleton (mt List.mem_reverse.mp hafter)]
    · simpa using hcs
    · simp [h]
  · exact ⟨[], [], cs, List.splitOn_eq_singleton h, rfl, by simp [h]⟩

namespace Excerpt

variable (x : Excerpt)

theorem exists_source_eq : ∃ ends, x.source.toList = x.line ++ ends ∧
    ∀ c ∈ ends, Line.isSpace c := by
  have hsplit := List.takeWhile_append_dropWhile (p := fun c => c = '\r' || c = '\n')
    (l := x.source.toList.reverse)
  refine ⟨(x.source.toList.reverse.takeWhile fun c => c = '\r' || c = '\n').reverse, ?_, ?_⟩
  · rw [line, ← List.reverse_append, hsplit, List.reverse_reverse]
  · intro c hc
    have hc := List.mem_takeWhile_imp (List.mem_reverse.mp hc)
    simp only [Bool.or_eq_true, decide_eq_true_eq] at hc
    rcases hc with rfl | rfl
    · rfl
    · rfl

variable {x}

theorem getElem?_line {i : Nat} {c : Char} (h : x.source.toList[i]? = some c)
    (hc : ¬ Line.isSpace c) : x.line[i]? = some c := by
  obtain ⟨ends, hsource, hends⟩ := x.exists_source_eq
  rw [hsource] at h
  rcases Nat.lt_or_ge i x.line.length with hi | hi
  · rwa [List.getElem?_append_left hi] at h
  · rw [List.getElem?_append_right hi] at h
    exact absurd (hends c (List.mem_of_getElem? h)) hc

end Excerpt

namespace Line

variable {limit : Int} {s s' : Scan} {c : Char} {cs : List Char} {e : Error}

namespace Scan

theorem not_isSpace_of_step (hs : s.settle = .ok s') (h : s.step limit c = .error e)
    (hc : ¬ s.phase.continues c) : ¬ isSpace c := by
  intro hspace
  rw [step_eq_settle hc, hs] at h
  rcases (settle_eq_ok hs).2.2 with ⟨hphase, rfl⟩ | hphase
  · simp [Except.bind, step, hphase, operand, hspace] at h
  · simp [Except.bind, step, hphase, operator, hspace] at h

theorem exists_getElem?_of_settle (hrun : Scan.run limit {} cs = .ok s) (h : s.settle = .error e) :
    ∃ c, cs[e.offset]? = some c ∧ ¬ isSpace c := by
  obtain ⟨start, text, hphase, rfl⟩ := settle_eq_error h
  obtain ⟨before, c, run, rfl, rfl, -, hc, -, -⟩ := (tracks_run hrun).literal start text hphase
  exact ⟨c, by simp, not_isSpace_of_startsLiteral hc⟩

theorem exists_getElem?_of_run (h : Scan.run limit {} cs = .error e) :
    ∃ c, cs[e.offset]? = some c ∧ ¬ isSpace c := by
  obtain ⟨before, c, after, s, rfl, hrun, hstep⟩ := run_eq_error h
  obtain ⟨hc, hs | ⟨⟨s', hs⟩, hoffset, -⟩⟩ := step_eq_error hstep
  · obtain ⟨d, hd, hspace⟩ := exists_getElem?_of_settle hrun hs
    refine ⟨d, ?_, hspace⟩
    rw [List.getElem?_append_left (List.getElem?_eq_some_iff.mp hd).1, hd]
  · refine ⟨c, ?_, not_isSpace_of_step hs hstep hc⟩
    rw [hoffset, (tracks_run hrun).offset]
    simp

theorem exists_getElem?_of_finish (hrun : Scan.run limit {} cs = .ok s) (h : s.finish = .error e)
    (hoffset : e.offset < cs.length) : ∃ c, cs[e.offset]? = some c ∧ ¬ isSpace c := by
  rcases finish_eq_error h with hs | ⟨-, ⟨-, hopen⟩ | ⟨-, hend⟩⟩
  · exact exists_getElem?_of_settle hrun hs
  · rw [(tracks_run hrun).starts] at hopen
    exact ⟨'(', getElem?_of_mem_openParentheses (List.mem_of_mem_head? hopen), by decide⟩
  · rw [hend, (tracks_run hrun).offset] at hoffset
    exact absurd hoffset (lt_irrefl _)

end Scan

theorem exists_getElem?_of_parse {source : String} (h : parse limit source = .error e)
    (hoffset : e.offset < source.length) :
    ∃ c, source.toList[e.offset]? = some c ∧ ¬ isSpace c := by
  rcases of_bind_eq_error h with hrun | ⟨s, hrun, hend⟩
  · exact Scan.exists_getElem?_of_run hrun
  · exact Scan.exists_getElem?_of_finish hrun hend (String.length_toList ▸ hoffset)

theorem Error.exists_text_eq (e : Error) (source : String) : ∃ message,
    (e.diagnostic source).text.toList = message ++ '\n' ::
      (Excerpt.margin ++ (Excerpt.mk (e.offset + 1) source).line ++ '\n' ::
        (List.replicate (Excerpt.margin.length + e.offset) ' ' ++ ['^'])) := by
  have hcolumn : (Excerpt.margin.length + ((e.offset : Int) + 1) - 1).toNat =
      Excerpt.margin.length + e.offset := by omega
  refine ⟨(e.fault.message ++ " " ++ ("at column " ++ toString ((e.offset : Int) + 1))).toList, ?_⟩
  simp [Error.diagnostic, Diagnostic.text, Excerpt.text, Excerpt.caretLine, hcolumn]

/--
The caret stands below the character to blame, unless the source that is shown holds a line feed.
Then the line above begins only after the last line feed, and what stands above the caret is
further on in the source by as many characters as the lines before that one hold.
-/
theorem caret_of_parse_eq_error {source : String} (h : parse limit source = .error e)
    (hoffset : e.offset < source.length) :
    let shown := (Excerpt.mk (e.offset + 1) source).line
    ∃ c before earlier above, source.toList[e.offset]? = some c ∧
      (e.diagnostic source).text.toList.splitOn '\n' =
        before ++ [above, List.replicate (Excerpt.margin.length + e.offset) ' ' ++ ['^']] ∧
      Excerpt.margin ++ shown = earlier ++ above ∧ (earlier = [] ↔ '\n' ∉ shown) ∧
      above[Excerpt.margin.length + e.offset]? = shown[e.offset + earlier.length]? ∧
      ('\n' ∉ shown → above[Excerpt.margin.length + e.offset]? = some c) := by
  intro shown
  obtain ⟨c, hc, hspace⟩ := exists_getElem?_of_parse h hoffset
  have hshown : shown[e.offset]? = some c := Excerpt.getElem?_line hc hspace
  obtain ⟨message, htext⟩ := e.exists_text_eq source
  obtain ⟨before, earlier, above, hsplit, hlast, hearlier⟩ :=
    exists_splitOn_eq (Excerpt.margin ++ shown)
  have hfeed : '\n' ∉ Excerpt.margin ++ shown ↔ '\n' ∉ shown := by simp [Excerpt.margin]
  have hcaret : '\n' ∉ List.replicate (Excerpt.margin.length + e.offset) ' ' ++ ['^'] := by simp
  have habove : above[Excerpt.margin.length + e.offset]? = shown[e.offset + earlier.length]? := by
    calc above[Excerpt.margin.length + e.offset]?
        = (earlier ++ above)[Excerpt.margin.length + (e.offset + earlier.length)]? := by
          rw [List.getElem?_append_right (by omega)]
          congr 1
          omega
      _ = shown[e.offset + earlier.length]? := by
          rw [← hlast, List.getElem?_append_right (by omega), Nat.add_sub_cancel_left]
  refine ⟨c, message.splitOn '\n' ++ before, earlier, above, hc, ?_, hlast, hearlier.trans hfeed,
    habove, fun hnone => ?_⟩
  · rw [htext, List.splitOn_append_cons_self, List.splitOn_append_cons_self, hsplit,
      List.splitOn_eq_singleton hcaret]
    simp
  · obtain rfl := hearlier.mpr (hfeed.mpr hnone)
    exact habove.trans hshown

theorem caret_of_parse_eq_error_question_mark :
    parse 100 "1 ? 2" = .error ⟨.expectedOperator "?", 2⟩ ∧ 2 < "1 ? 2".length ∧
      ∃ before above,
        (Error.diagnostic ⟨.expectedOperator "?", 2⟩ "1 ? 2").text.toList.splitOn '\n' =
          before ++ [above, List.replicate 6 ' ' ++ ['^']] ∧ above[6]? = some '?' := by
  have hparse : parse 100 "1 ? 2" = .error ⟨.expectedOperator "?", 2⟩ := rfl
  have hoffset : 2 < "1 ? 2".length := by decide
  obtain ⟨c, before, earlier, above, hc, hlines, -, -, -, hcaret⟩ :=
    caret_of_parse_eq_error hparse hoffset
  cases hc
  exact ⟨hparse, hoffset, before, above, hlines, hcaret (by decide)⟩

/-- Of two lines only the second stands above the caret, which is too far to the right for it. -/
theorem exists_caret_astray : ∃ source e, parse 100 source = .error e ∧ e.offset < source.length ∧
    ∃ before above, (e.diagnostic source).text.toList.splitOn '\n' =
        before ++ [above, List.replicate (Excerpt.margin.length + e.offset) ' ' ++ ['^']] ∧
      above[Excerpt.margin.length + e.offset]? ≠ source.toList[e.offset]? := by
  refine ⟨"1 +\n?", ⟨.expectedOperand (some "?"), 4⟩, rfl, by decide,
    ["expected a number or group, got '?' at column 5".toList, "  | 1 +".toList], ['?'], ?_, ?_⟩
  · decide +kernel
  · decide

end Line

end Abacus
