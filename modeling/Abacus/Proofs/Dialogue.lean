import Abacus.Console.Run
import Abacus.Proofs.History

/-! # Dialogues and lists of lines

A dialogue over an input that is no terminal shows what its lines show when they
are given as arguments, and between them the listings that were asked for. No
line that fails keeps a later one from running, either way.
-/

namespace Abacus.Console

variable {s : Session} {fault : Option Text.Utf8.Fault} {raw line : String}
  {raws lines before after : List String}

def IsSkipped (text : String) : Prop :=
  text = "" ∨ text.toList.head? = some '#'

def AsksToStop (text : String) : Prop :=
  text = ":quit" ∨ text = ":exit"

instance (text : String) : Decidable (IsSkipped text) :=
  inferInstanceAs (Decidable (_ ∨ _))

instance (text : String) : Decidable (AsksToStop text) :=
  inferInstanceAs (Decidable (_ ∨ _))

/-- The stripped lines that are not skipped, up to the first one that asks to stop. -/
def requests (raws : List String) : List String :=
  ((raws.map Text.strip).filter (¬ IsSkipped ·)).takeWhile (¬ AsksToStop ·)

/-- The requests other than those for a listing. -/
def sessionLines (raws : List String) : List String :=
  (requests raws).filter (· ≠ ":vars")

theorem requests_cons (raw : String) (raws : List String) : requests (raw :: raws) =
    if IsSkipped (Text.strip raw) then requests raws
    else if AsksToStop (Text.strip raw) then []
    else Text.strip raw :: requests raws := by
  unfold requests
  split_ifs with hskip hstop <;> simp [*]

theorem sessionLines_cons (raw : String) (raws : List String) : sessionLines (raw :: raws) =
    if IsSkipped (Text.strip raw) then sessionLines raws
    else if AsksToStop (Text.strip raw) then []
    else if Text.strip raw = ":vars" then sessionLines raws
    else Text.strip raw :: sessionLines raws := by
  unfold sessionLines
  rw [requests_cons]
  split_ifs with hskip hstop hvars <;> simp [*]

theorem ofInput_eq (raw : String) : Request.ofInput raw =
    if IsSkipped (Text.strip raw) then .skip
    else if AsksToStop (Text.strip raw) then .quit
    else if Text.strip raw = ":vars" then .listVariables
    else .line (Text.strip raw) :=
  rfl

theorem dialogue_cons (fault : Option Text.Utf8.Fault) (s : Session) (raw : String)
    (raws : List String) : dialogue false fault s (raw :: raws) =
      if IsSkipped (Text.strip raw) then dialogue false fault s raws
      else if AsksToStop (Text.strip raw) then []
      else if Text.strip raw = ":vars" then .listing s.store :: dialogue false fault s raws
      else (runLine s (Text.strip raw)).1 ++
        dialogue false fault (runLine s (Text.strip raw)).2 raws := by
  have hprompts : dialogue.prompts false = [] := rfl
  rw [dialogue, hprompts, List.nil_append, respond, ofInput_eq]
  -- Branches are chosen by rewriting: a reduction of the last one would run the line.
  by_cases hskip : IsSkipped (Text.strip raw)
  · rw [if_pos hskip, if_pos hskip]
    rfl
  rw [if_neg hskip, if_neg hskip]
  by_cases hstop : AsksToStop (Text.strip raw)
  · rw [if_pos hstop, if_pos hstop]
  rw [if_neg hstop, if_neg hstop]
  by_cases hvars : Text.strip raw = ":vars"
  · rw [if_pos hvars, if_pos hvars]
    rfl
  · rw [if_neg hvars, if_neg hvars]

theorem snd_run_cons (s : Session) (line : String) (lines : List String) :
    (s.run (line :: lines)).2 = ((runLine s line).2.run lines).2 :=
  rfl

def Entry.isListing : Entry → Bool
  | listing _ => true
  | _ => false

theorem not_isListing_of_mem_runLine {entry : Entry} (h : entry ∈ (runLine s line).1) :
    entry.isListing = false := by
  change entry ∈ Entry.ofOutcome line (s.execute line).1 at h
  unfold Entry.ofOutcome at h
  split at h
  · rcases List.mem_cons.mp h with rfl | h
    · rfl
    · obtain ⟨n, -, rfl⟩ := List.mem_map.mp h
      rfl
  · cases List.mem_singleton.mp h
    rfl

section

variable (exitCode : UInt32) (threshold : Level)

theorem output_append (shown rest : List Entry) :
    (Report.ofEntries exitCode threshold (shown ++ rest)).output =
      (Report.ofEntries exitCode threshold shown).output ++
        (Report.ofEntries exitCode threshold rest).output := by
  simp only [Report.ofEntries, List.map_append, String.join_append]

theorem errorOutput_append (shown rest : List Entry) :
    (Report.ofEntries exitCode threshold (shown ++ rest)).errorOutput =
      (Report.ofEntries exitCode threshold shown).errorOutput ++
        (Report.ofEntries exitCode threshold rest).errorOutput := by
  simp only [Report.ofEntries, List.map_append, String.join_append]

theorem output_append_listing (shown rest : List Entry) (store : Store) :
    (Report.ofEntries exitCode threshold (shown ++ .listing store :: rest)).output =
      (Report.ofEntries exitCode threshold shown).output ++
        String.join ((listing store).map (· ++ "\n")) ++
          (Report.ofEntries exitCode threshold rest).output := by
  rw [output_append, String.append_assoc]
  simp only [Report.ofEntries, List.map_cons, String.join_cons]
  rfl

theorem errorOutput_append_failure (shown rest : List Entry) (text : String) :
    (Report.ofEntries exitCode threshold (shown ++ .failure text :: rest)).errorOutput =
      (Report.ofEntries exitCode threshold shown).errorOutput ++ (Text.display text ++ "\n") ++
        (Report.ofEntries exitCode threshold rest).errorOutput := by
  rw [errorOutput_append, String.append_assoc]
  simp only [Report.ofEntries, List.map_cons, String.join_cons]
  rfl

theorem errorOutput_filter (entries : List Entry) :
    (Report.ofEntries exitCode threshold (entries.filter (!·.isListing))).errorOutput =
      (Report.ofEntries exitCode threshold entries).errorOutput := by
  simp only [Report.ofEntries, String.join, List.foldl_map, List.foldl_filter]
  congr 1
  funext written entry
  cases entry with
  | listing store => exact String.append_empty.symm
  | prompt | result | failure | log => rfl

/-- What a line adds to the standard output: its value, if it has one to show. -/
def printed : Except Session.Failure Session.Outcome → String
  | .ok (.evaluated _ n) => ">> " ++ n.text ++ "\n"
  | .ok (.assigned ..) | .error _ => ""

theorem output_ofOutcome (line : String) (o : Except Session.Failure Session.Outcome) :
    (Report.ofEntries exitCode threshold (Entry.ofOutcome line o)).output = printed o := by
  cases o with
  | error f => rfl
  | ok o =>
    cases o with
    | assigned x ts => rfl
    | evaluated ts n => exact String.empty_append

theorem output_runLines (s : Session) (lines : List String) :
    (Report.ofEntries exitCode threshold (runLines s lines)).output =
      String.join ((s.run lines).1.map printed) := by
  induction lines generalizing s with
  | nil => rfl
  | cons line lines ih =>
    rw [runLines_cons, output_append, ih]
    change (Report.ofEntries exitCode threshold (Entry.ofOutcome line (s.execute line).1)).output ++
      _ = _
    rw [output_ofOutcome, Session.run, List.map_cons, String.join_cons]
    rfl

theorem output_eq_empty {entries : List Entry} (h : ∀ entry ∈ entries, entry.output = "") :
    (Report.ofEntries exitCode threshold entries).output = "" := by
  induction entries with
  | nil => rfl
  | cons entry entries ih =>
    obtain ⟨hentry, hentries⟩ := List.forall_mem_cons.mp h
    have ih : String.join (entries.map Entry.output) = "" := ih hentries
    simp only [Report.ofEntries, List.map_cons, String.join_cons, hentry, ih, String.empty_append]

theorem output_openSession (environment : String → Option String) :
    (Report.ofEntries exitCode threshold (openSession environment).2).output = "" :=
  output_eq_empty exitCode threshold (by simp [openSession, Entry.output])

end

theorem filter_dialogue (s : Session) (raws : List String) :
    (dialogue false none s raws).filter (!·.isListing) = runLines s (sessionLines raws) := by
  induction raws generalizing s with
  | nil => rfl
  | cons raw raws ih =>
    have hline : (runLine s (Text.strip raw)).1.filter (!·.isListing) =
        (runLine s (Text.strip raw)).1 :=
      List.filter_eq_self.mpr fun entry h => by rw [not_isListing_of_mem_runLine h]; rfl
    rw [dialogue_cons, sessionLines_cons]
    split_ifs with hskip hstop hvars
    · exact ih s
    · rfl
    · exact ih s
    · rw [List.filter_append, hline, ih, runLines_cons]

theorem dialogue_of_not_mem (h : ":vars" ∉ requests raws) :
    dialogue false none s raws = runLines s (requests raws) := by
  induction raws generalizing s with
  | nil => rfl
  | cons raw raws ih =>
    rw [requests_cons] at h ⊢
    rw [dialogue_cons]
    split_ifs at h ⊢ with hskip hstop hvars
    · exact ih h
    · rfl
    · exact absurd (hvars ▸ List.mem_cons_self) h
    · rw [runLines_cons, ih fun hraws => h (List.mem_cons_of_mem _ hraws)]

theorem dialogue_append (h : ∀ raw ∈ before, ¬ AsksToStop (Text.strip raw)) :
    dialogue false fault s (before ++ after) = dialogue false none s before ++
      dialogue false fault (s.run (sessionLines before)).2 after := by
  induction before generalizing s with
  | nil => rfl
  | cons raw before ih =>
    obtain ⟨hstop, hbefore⟩ := List.forall_mem_cons.mp h
    rw [List.cons_append, dialogue_cons, dialogue_cons, sessionLines_cons]
    simp only [if_neg hstop]
    split_ifs with hskip hvars
    · exact ih hbefore
    · rw [ih hbefore, List.cons_append]
    · rw [ih hbefore, snd_run_cons, List.append_assoc]

/-- A listing shows the variables of its time, and nothing else is shown otherwise for it. -/
theorem dialogue_of_vars (hvars : Text.strip raw = ":vars")
    (h : ∀ raw ∈ before, ¬ AsksToStop (Text.strip raw)) :
    dialogue false fault s (before ++ raw :: after) = dialogue false none s before ++
      .listing (s.run (sessionLines before)).2.store ::
        dialogue false fault (s.run (sessionLines before)).2 after := by
  have hskip : ¬ IsSkipped ":vars" := by decide
  have hstop : ¬ AsksToStop ":vars" := by decide
  rw [dialogue_append h, dialogue_cons, hvars, if_neg hskip, if_neg hstop, if_pos rfl]

theorem runLines_append (s : Session) (before after : List String) :
    runLines s (before ++ after) = runLines s before ++ runLines (s.run before).2 after := by
  induction before generalizing s with
  | nil => rfl
  | cons line before ih =>
    rw [List.cons_append, runLines_cons, runLines_cons, ih, snd_run_cons, List.append_assoc]

theorem runLine_of_error {f : Session.Failure} (h : s.outcome line = .error f) :
    runLine s line = ([.failure (f.diagnostic line).text], s) := by
  rw [runLine, Session.execute_error h]
  rfl

theorem isFailure_ofOutcome (line : String) (o : Except Session.Failure Session.Outcome) :
    (Entry.ofOutcome line o).any Entry.isFailure ↔ ∃ f, o = .error f := by
  cases o with
  | error f => simp [Entry.ofOutcome, Entry.isFailure]
  | ok o => cases o <;> simp [Entry.ofOutcome, Entry.isFailure, Session.Outcome.value?]

theorem isFailure_runLines (s : Session) (lines : List String) :
    (runLines s lines).any Entry.isFailure ↔ ∃ f, .error f ∈ (s.run lines).1 := by
  induction lines generalizing s with
  | nil => simp [runLines_nil, Session.run]
  | cons line lines ih =>
    have hline : (runLine s line).1 = Entry.ofOutcome line (s.outcome line) := by
      rw [← Session.fst_execute]
      rfl
    rw [runLines_cons, List.any_append, Bool.or_eq_true, ih, hline, isFailure_ofOutcome,
      Session.run_cons, ← exists_or]
    simp only [List.mem_cons, eq_comm]
    rfl

theorem not_isFailure_openSession (environment : String → Option String) :
    (openSession environment).2.any Entry.isFailure = false := by
  simp [openSession, Entry.isFailure]

theorem filter_openSession (environment : String → Option String) :
    (openSession environment).2.filter (!·.isListing) = (openSession environment).2 := by
  simp [openSession, Entry.isListing]

section

variable (w : Surroundings)

theorem entries_evaluate (lines : List String) : (Command.evaluate lines).entries w =
    (openSession w.environment).2 ++ runLines (openSession w.environment).1 lines := by
  rw [Command.entries]

theorem entries_evaluate_append (before after : List String) :
    (Command.evaluate (before ++ after)).entries w = (Command.evaluate before).entries w ++
      runLines ((openSession w.environment).1.run before).2 after := by
  rw [entries_evaluate, entries_evaluate, runLines_append, List.append_assoc]

theorem entries_evaluate_of_error {f : Session.Failure}
    (h : ((openSession w.environment).1.run before).2.outcome line = .error f) :
    (Command.evaluate (before ++ line :: after)).entries w =
      (Command.evaluate before).entries w ++ .failure (f.diagnostic line).text ::
        runLines ((openSession w.environment).1.run before).2 after := by
  rw [entries_evaluate_append, runLines_cons, runLine_of_error h]
  rfl

theorem output_evaluate (exitCode : UInt32) (threshold : Level) (lines : List String) :
    (Report.ofEntries exitCode threshold ((Command.evaluate lines).entries w)).output =
      String.join (((openSession w.environment).1.run lines).1.map printed) := by
  rw [entries_evaluate, output_append, output_openSession, String.empty_append, output_runLines]

theorem entries_converse : Command.converse.entries w = (openSession w.environment).2 ++
    dialogue w.interactive w.input.fault (openSession w.environment).1 w.input.lines := by
  rw [Command.entries]

theorem exitCode_evaluate (lines : List String) :
    (Command.evaluate lines).exitCode ((Command.evaluate lines).entries w) = 1 ↔
      ∃ f, .error f ∈ ((openSession w.environment).1.run lines).1 := by
  have hentries : ((Command.evaluate lines).entries w).any Entry.isFailure =
      (runLines (openSession w.environment).1 lines).any Entry.isFailure := by
    rw [entries_evaluate, List.any_append, not_isFailure_openSession, Bool.false_or]
  rw [← isFailure_runLines, Command.exitCode, hentries]
  split_ifs with h
  · exact iff_of_true rfl h
  · exact iff_of_false (by decide) h

end

section

variable (environment : String → Option String)

theorem entries_converse_append (h : ∀ raw ∈ before, ¬ AsksToStop (Text.strip raw)) :
    Command.converse.entries { environment, input := { lines := before ++ after } } =
      Command.converse.entries { environment, input := { lines := before } } ++
        dialogue false none ((openSession environment).1.run (sessionLines before)).2 after := by
  rw [entries_converse, entries_converse, dialogue_append h, List.append_assoc]

theorem entries_converse_of_vars (hvars : Text.strip raw = ":vars")
    (h : ∀ raw ∈ before, ¬ AsksToStop (Text.strip raw)) :
    Command.converse.entries { environment, input := { lines := before ++ raw :: after } } =
      Command.converse.entries { environment, input := { lines := before } } ++
        .listing ((openSession environment).1.run (sessionLines before)).2.store ::
          dialogue false none ((openSession environment).1.run (sessionLines before)).2 after := by
  rw [entries_converse, entries_converse, dialogue_of_vars hvars h, List.append_assoc]

end

/--
Up to the first line that asks to stop, a dialogue shows what its lines show as arguments, on both
streams. Each listing comes in addition where it is asked for, and shows the variables of that time.
Only lines given as arguments make a difference to the exit code, and one that fails only adds its
message.
-/
theorem converse_shows_evaluated (environment : String → Option String) (exitCode : UInt32)
    (threshold : Level) {bytes : List UInt8} {text : List Char}
    (hdecode : Text.Utf8.decode bytes = .ok (text, none)) :
    let raws := (Text.lines text).map String.ofList
    let s := (openSession environment).1
    let conversed (input : Input) := Command.converse.entries { environment, input }
    let evaluated (lines : List String) :=
      (Command.evaluate lines).entries { environment, input := .ofBytes bytes }
    let shown := conversed (.ofBytes bytes)
    let report := Report.ofEntries exitCode threshold
    (":vars" ∉ requests raws → shown = evaluated (requests raws) ∧
      (report shown).output = (report (evaluated (requests raws))).output) ∧
    shown.filter (!·.isListing) = evaluated (sessionLines raws) ∧
    (report shown).errorOutput = (report (evaluated (sessionLines raws))).errorOutput ∧
    (∀ before raw after, raws = before ++ raw :: after → Text.strip raw = ":vars" →
      (∀ line ∈ before, ¬ AsksToStop (Text.strip line)) →
      ∃ rest, conversed { lines := before ++ after } = conversed { lines := before } ++ rest ∧
        shown = conversed { lines := before } ++
          .listing (s.run (sessionLines before)).2.store :: rest ∧
        (report (conversed { lines := before ++ after })).output =
          (report (conversed { lines := before })).output ++ (report rest).output ∧
        (report shown).output = (report (conversed { lines := before })).output ++
          String.join ((listing (s.run (sessionLines before)).2.store).map (· ++ "\n")) ++
            (report rest).output) ∧
    Command.converse.exitCode shown = 0 ∧
    ∀ lines, ((Command.evaluate lines).exitCode (evaluated lines) = 1 ↔
        ∃ f, .error f ∈ (s.run lines).1) ∧
      (report (evaluated lines)).output = String.join ((s.run lines).1.map printed) ∧
      ∀ before line after f, lines = before ++ line :: after →
        (s.run before).2.outcome line = .error f →
        ∃ rest, evaluated (before ++ after) = evaluated before ++ rest ∧
          evaluated lines = evaluated before ++ .failure (f.diagnostic line).text :: rest ∧
          (report (evaluated lines)).errorOutput = (report (evaluated before)).errorOutput ++
            (Text.display (f.diagnostic line).text ++ "\n") ++ (report rest).errorOutput := by
  intro raws s conversed evaluated shown report
  have hshown : shown = conversed { lines := raws } := by
    change conversed (.ofBytes bytes) = _
    rw [Input.ofBytes, hdecode]
  have hdialogue : shown = (openSession environment).2 ++ dialogue false none s raws :=
    hshown.trans (entries_converse _)
  have hevaluated (lines : List String) : evaluated lines =
      (openSession environment).2 ++ runLines s lines := entries_evaluate _ lines
  have hfilter : shown.filter (!·.isListing) = evaluated (sessionLines raws) := by
    rw [hdialogue, List.filter_append, filter_openSession, filter_dialogue, hevaluated]
  refine ⟨?_, hfilter, ?_, ?_, rfl, ?_⟩
  · intro hvars
    have hsame : shown = evaluated (requests raws) := by
      rw [hdialogue, hevaluated, dialogue_of_not_mem hvars]
    exact ⟨hsame, by rw [hsame]⟩
  · rw [← hfilter]
    exact (errorOutput_filter exitCode threshold shown).symm
  · intro before raw after hraws hvars hbefore
    have hwithout : conversed { lines := before ++ after } = conversed { lines := before } ++
        dialogue false none (s.run (sessionLines before)).2 after :=
      entries_converse_append environment hbefore
    have hwith : shown = conversed { lines := before } ++
        .listing (s.run (sessionLines before)).2.store ::
          dialogue false none (s.run (sessionLines before)).2 after := by
      rw [hshown, hraws]
      exact entries_converse_of_vars environment hvars hbefore
    refine ⟨_, hwithout, hwith, ?_, ?_⟩
    · rw [hwithout]
      exact output_append exitCode threshold _ _
    · rw [hwith]
      exact output_append_listing exitCode threshold _ _ _
  · intro lines
    refine ⟨exitCode_evaluate _ lines, output_evaluate _ exitCode threshold lines, ?_⟩
    rintro before line after f rfl hline
    have hfails : evaluated (before ++ line :: after) = evaluated before ++
        .failure (f.diagnostic line).text :: runLines (s.run before).2 after :=
      entries_evaluate_of_error _ hline
    refine ⟨_, entries_evaluate_append _ before after, hfails, ?_⟩
    rw [hfails]
    exact errorOutput_append_failure exitCode threshold _ _ _

/-- `a` stands for `b`, which has no value the first time. The last line is never reached. -/
theorem converse_shows_evaluated_with_listing :
    let environment : String → Option String := fun _ => none
    let text := "a = b\n:vars\n# a\n a \nb = 2\r\na\n:quit\nb".toList
    let input := Input.ofBytes (text.map Char.toUInt8)
    let lines := ["a = b", "a", "b = 2", "a"]
    let store := ({} : Store).assign "a" [.identifier "a", .assignment, .identifier "b"]
    let evaluated := (Command.evaluate lines).entries { environment, input }
    let shown := Command.converse.entries { environment, input }
    let report := Report.ofEntries 0 .warning
    shown.filter (!·.isListing) = evaluated ∧ (Command.evaluate lines).exitCode evaluated = 1 ∧
      (∃ earlier rest, shown = earlier ++ .listing store :: rest) ∧
      (report shown).output = String.join ((listing store).map (· ++ "\n")) ++ ">> 2\n" ∧
      (report shown).errorOutput = "unable to find variable with name b\n" := by
  have hfails : .error (.evaluation (.undefined "b")) ∈
      ((openSession fun _ => none).1.run ["a = b", "a", "b = 2", "a"]).1 :=
    List.mem_of_getElem? (i := 1) rfl
  intro environment text input lines store evaluated shown report
  have hdecode : Text.Utf8.decode (text.map Char.toUInt8) = .ok (text, none) := rfl
  obtain ⟨-, hfilter, -, hvars, -, hlines⟩ :=
    converse_shows_evaluated environment 0 .warning hdecode
  obtain ⟨rest, -, hshown, -⟩ := hvars ["a = b"] ":vars" _ rfl rfl (by decide)
  refine ⟨hfilter, (hlines lines).1.mpr ⟨_, hfails⟩, ⟨_, rest, hshown⟩, ?_, ?_⟩
  · decide +kernel
  · decide +kernel

end Abacus.Console
