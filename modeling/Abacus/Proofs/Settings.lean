import Mathlib.Data.List.TakeWhile
import Abacus.Proofs.Number.Numeral
import Abacus.Settings

/-! # Settings from an environment

Every text of a variable, and its absence, sets a limit that may be set. A
spelling of an integer sets that integer, moved into the range of the limits with
a warning; every other text that is not blank is ignored with a warning.
-/

namespace Abacus

namespace Text

/-- Blanks, the core, and blanks again. -/
def Surrounds (text core : List Char) : Prop :=
  ∃ before after, text = before ++ core ++ after ∧
    (∀ c ∈ before, isBlank c) ∧ ∀ c ∈ after, isBlank c

variable {text core : List Char}

theorem dropWhile_isBlank_append {before rest : List Char} (hbefore : ∀ c ∈ before, isBlank c)
    (hrest : ∀ c ∈ rest.head?, isBlank c = false) :
    (before ++ rest).dropWhile isBlank = rest := by
  rw [List.dropWhile_append_of_pos hbefore]
  cases rest with
  | nil => rfl
  | cons c rest => exact List.dropWhile_cons_of_neg (Bool.not_eq_true _ ▸ hrest c rfl)

theorem surrounds_stripChars (text : List Char) : Surrounds text (stripChars text) := by
  have hfront := text.takeWhile_append_dropWhile (p := isBlank)
  have hback := (text.dropWhile isBlank).reverse.takeWhile_append_dropWhile (p := isBlank)
  refine ⟨text.takeWhile isBlank, ((text.dropWhile isBlank).reverse.takeWhile isBlank).reverse, ?_,
    fun c => List.mem_takeWhile_imp, fun c hc => List.mem_takeWhile_imp (List.mem_reverse.mp hc)⟩
  rw [stripChars, List.append_assoc, ← List.reverse_append, hback, List.reverse_reverse, hfront]

theorem stripChars_eq_nil_iff : stripChars text = [] ↔ ∀ c ∈ text, isBlank c := by
  constructor
  · intro h
    obtain ⟨before, after, htext, hbefore, hafter⟩ := surrounds_stripChars text
    rw [h, List.append_nil] at htext
    exact htext ▸ List.forall_mem_append.mpr ⟨hbefore, hafter⟩
  · intro h
    rw [stripChars, List.dropWhile_eq_nil_iff.mpr h]
    rfl

theorem stripChars_of_surrounds (h : Surrounds text core) (hne : core ≠ [])
    (hcore : ∀ c ∈ core, isBlank c = false) : stripChars text = core := by
  obtain ⟨before, after, rfl, hbefore, hafter⟩ := h
  have hfront : ∀ c ∈ (core ++ after).head?, isBlank c = false := by
    intro c hc
    rw [List.head?_append, List.head?_eq_some_head hne] at hc
    exact hcore c (Option.some.inj hc ▸ List.head_mem hne)
  have hback : ∀ c ∈ core.reverse.head?, isBlank c = false := fun c hc =>
    hcore c (List.mem_reverse.mp (List.mem_of_mem_head? hc))
  have hafter : ∀ c ∈ after.reverse, isBlank c := fun c hc => hafter c (List.mem_reverse.mp hc)
  rw [stripChars, List.append_assoc, dropWhile_isBlank_append hbefore hfront, List.reverse_append,
    dropWhile_isBlank_append hafter hback, List.reverse_reverse]

end Text

namespace Settings

open Text Numeral

def Holds (s : String) (n : Int) : Prop :=
  ∃ core, Surrounds s.toList core ∧ Spells core n

/-- The limit that the text of a variable sets, and the warning that comes with it. -/
inductive Sets (name : String) : Option String → Int → Option Warning → Prop where
  | unset : Sets name none 100 none
  | blank {s : String} : (∀ c ∈ s.toList, isBlank c) → Sets name (some s) 100 none
  | within {s : String} {n : Int} : Holds s n → 1 ≤ n → n ≤ 150 → Sets name (some s) n none
  | above {s : String} {n : Int} : Holds s n → 150 < n →
      Sets name (some s) 150 (some (.lowered name n))
  | below {s : String} {n : Int} : Holds s n → n < 1 →
      Sets name (some s) 100 (some (.invalid name (strip s)))
  | unreadable {s : String} : (¬ ∀ c ∈ s.toList, isBlank c) → (∀ n, ¬ Holds s n) →
      Sets name (some s) 100 (some (.invalid name (strip s)))

variable {name s : String} {n : Int}

theorem ofChars?_stripChars_eq_some_iff : ofChars? (stripChars s.toList) = some n ↔ Holds s n := by
  constructor
  · intro h
    exact ⟨_, surrounds_stripChars s.toList, ofChars?_eq_some_iff.mp h⟩
  · rintro ⟨core, hs, hcore⟩
    rw [stripChars_of_surrounds hs hcore.ne_nil hcore.not_isBlank]
    exact ofChars?_eq_some_iff.mpr hcore

theorem strip_eq_empty_iff : strip s = "" ↔ ∀ c ∈ s.toList, isBlank c := by
  rw [← stripChars_eq_nil_iff, ← String.toList_inj, strip, String.toList_ofList,
    String.toList_empty]

theorem readLimit_of_blank (h : ∀ c ∈ s.toList, isBlank c) :
    readLimit name (some s) = (.default, none) := by
  rw [readLimit, Option.getD_some, strip_eq_empty_iff.mpr h]
  rfl

theorem readLimit_of_not_holds (hblank : ¬ ∀ c ∈ s.toList, isBlank c) (h : ∀ n, ¬ Holds s n) :
    readLimit name (some s) = (.default, some (.invalid name (strip s))) := by
  have hchars : ofChars? (stripChars s.toList) = none :=
    Option.eq_none_iff_forall_ne_some.mpr fun n hn => h n (ofChars?_stripChars_eq_some_iff.mp hn)
  have htext : ofChars? (strip s).toList = none := by rwa [strip, String.toList_ofList]
  simp only [readLimit, Option.getD_some, mt strip_eq_empty_iff.mp hblank, if_false, htext]

theorem Holds.readLimit_eq (h : Holds s n) : readLimit name (some s) =
    if h : n < 1 then (.default, some (.invalid name (strip s)))
    else if h' : Depth.greatest < n then (.highest, some (.lowered name n))
    else (⟨n, Int.not_lt.mp h, Int.not_lt.mp h'⟩, none) := by
  have hchars := ofChars?_stripChars_eq_some_iff.mpr h
  have htext : ofChars? (strip s).toList = some n := by rwa [strip, String.toList_ofList]
  have hne : strip s ≠ "" := by
    intro e
    rw [e] at htext
    cases htext
  simp only [readLimit, Option.getD_some, hne, if_false, htext]

theorem sets_readLimit (name : String) (text : Option String) :
    Sets name text (readLimit name text).1 (readLimit name text).2 := by
  cases text with
  | none => exact .unset
  | some s =>
    by_cases hblank : ∀ c ∈ s.toList, isBlank c
    · rw [readLimit_of_blank hblank]
      exact .blank hblank
    by_cases hs : ∃ n, Holds s n
    · obtain ⟨n, hn⟩ := hs
      rw [hn.readLimit_eq]
      split_ifs with hlow hhigh
      · exact .below hn hlow
      · exact .above hn hhigh
      · exact .within hn (Int.not_lt.mp hlow) (Int.not_lt.mp hhigh)
    · have hnot := not_exists.mp hs
      rw [readLimit_of_not_holds hblank hnot]
      exact .unreadable hblank hnot

theorem Sets.readLimit_eq {text : Option String} {warning : Option Warning}
    (h : Sets name text n warning) :
    n = (readLimit name text).1 ∧ warning = (readLimit name text).2 := by
  cases h with
  | unset => exact ⟨rfl, rfl⟩
  | blank hs =>
    rw [readLimit_of_blank hs]
    exact ⟨rfl, rfl⟩
  | within hn hlow hhigh =>
    have hhigh : n ≤ Depth.greatest := hhigh
    rw [hn.readLimit_eq, dif_neg (Int.not_lt.mpr hlow), dif_neg (Int.not_lt.mpr hhigh)]
    exact ⟨rfl, rfl⟩
  | @above s n hn hhigh =>
    have hhigh' : Depth.greatest < n := hhigh
    rw [hn.readLimit_eq, dif_neg (by omega), dif_pos hhigh']
    exact ⟨rfl, rfl⟩
  | below hn hlow =>
    rw [hn.readLimit_eq, dif_pos hlow]
    exact ⟨rfl, rfl⟩
  | unreadable hblank hnot =>
    rw [readLimit_of_not_holds hblank hnot]
    exact ⟨rfl, rfl⟩

theorem sets_iff {text : Option String} {warning : Option Warning} : Sets name text n warning ↔
    n = (readLimit name text).1 ∧ warning = (readLimit name text).2 :=
  ⟨Sets.readLimit_eq, fun h => h.1 ▸ h.2 ▸ sets_readLimit name text⟩

theorem limit?_val (limit : Depth.Limit) : limit? limit.1 = .ok limit := by
  unfold limit?
  rw [dif_neg (Int.not_lt.mpr limit.2.1), dif_neg (Int.not_lt.mpr limit.2.2)]

theorem ofLimits?_val (settings : Settings) :
    ofLimits? (some settings.groupDepth) (some settings.evaluationDepth) = .ok settings := by
  simp only [ofLimits?, ofLimits?.given, limit?_val]

theorem load_eq (environment : String → Option String) : load environment =
    ({ groupDepth := (readLimit groupVariable (environment groupVariable)).1
       evaluationDepth := (readLimit evaluationVariable (environment evaluationVariable)).1 },
      (readLimit groupVariable (environment groupVariable)).2.toList ++
        (readLimit evaluationVariable (environment evaluationVariable)).2.toList) := by
  unfold load
  -- As variables, the two readings are not evaluated.
  generalize readLimit groupVariable (environment groupVariable) = first
  generalize readLimit evaluationVariable (environment evaluationVariable) = second
  rfl

/--
Every environment makes settings. Each limit comes from the text of its own variable by the rule,
which leaves one outcome, and the two limits pass the check that given limits have to pass.
-/
theorem load_sets_limits (environment : String → Option String) :
    ofLimits? (some (load environment).1.groupDepth) (some (load environment).1.evaluationDepth) =
      .ok (load environment).1 ∧
    (1 ≤ (load environment).1.groupDepth.1 ∧ (load environment).1.groupDepth.1 ≤ 150) ∧
    (1 ≤ (load environment).1.evaluationDepth.1 ∧ (load environment).1.evaluationDepth.1 ≤ 150) ∧
    (∃ first second : Option Warning,
      (load environment).2 = first.toList ++ second.toList ∧
      (∀ n warning, Sets groupVariable (environment groupVariable) n warning ↔
        n = (load environment).1.groupDepth ∧ warning = first) ∧
      ∀ n warning, Sets evaluationVariable (environment evaluationVariable) n warning ↔
        n = (load environment).1.evaluationDepth ∧ warning = second) ∧
    ∀ environment' : String → Option String,
      (environment' groupVariable = environment groupVariable →
        (load environment').1.groupDepth = (load environment).1.groupDepth) ∧
      (environment' evaluationVariable = environment evaluationVariable →
        (load environment').1.evaluationDepth = (load environment).1.evaluationDepth) := by
  have hcheck := ofLimits?_val (load environment).1
  have hrange (limit : Depth.Limit) : 1 ≤ limit.1 ∧ limit.1 ≤ 150 := limit.2
  simp only [load_eq] at hcheck ⊢
  refine ⟨hcheck, hrange _, hrange _, ?_, fun environment' => ⟨fun h => ?_, fun h => ?_⟩⟩
  · exact ⟨_, _, rfl, fun n warning => sets_iff, fun n warning => sets_iff⟩
  · rw [h]
  · rw [h]

/--
Digits of two scripts and an underscore, after an ideographic space and a plus, spell `12`. The
other variable holds `151` in Devanagari digits, or does not matter.
-/
theorem load_sets_limits_scripts :
    let environment : String → Option String := fun x =>
      if x = groupVariable then some "\u3000+0_1٢\n" else some "१५१"
    (load environment).1.groupDepth.1 = 12 ∧ (load environment).1.evaluationDepth.1 = 150 ∧
      (load environment).2 = [.lowered evaluationVariable 151] ∧
      (load fun _ => some "\u3000+0_1٢\n").1.groupDepth = (load environment).1.groupDepth := by
  intro environment
  have hgroup : Sets groupVariable (environment groupVariable) 12 none := by
    have hdigits : Digits ['0', '_', '1', '٢'] [0, 1, 2] :=
      .underscore ⟨by decide, 0x30, by decide, rfl⟩ (.next ⟨by decide, 0x30, by decide, rfl⟩
        (.last ⟨by decide, 0x660, by decide, rfl⟩))
    have hs : Surrounds "\u3000+0_1٢\n".toList ('+' :: ['0', '_', '1', '٢']) :=
      ⟨['\u3000'], ['\n'], rfl, List.forall_mem_singleton.mpr (by decide),
        List.forall_mem_singleton.mpr (by decide)⟩
    exact .within ⟨_, hs, .plus hdigits (by decide)⟩ (by decide) (by decide)
  have hevaluation : Sets evaluationVariable (environment evaluationVariable) 150
      (some (.lowered evaluationVariable 151)) := by
    have hdigits : Digits ['१', '५', '१'] [1, 5, 1] :=
      .next ⟨by decide, 0x966, by decide, rfl⟩ (.next ⟨by decide, 0x966, by decide, rfl⟩
        (.last ⟨by decide, 0x966, by decide, rfl⟩))
    have hs : Surrounds "१५१".toList ['१', '५', '१'] :=
      ⟨[], [], rfl, List.forall_mem_nil _, List.forall_mem_nil _⟩
    exact .above ⟨_, hs, .unsigned hdigits (by decide)⟩ (by decide)
  obtain ⟨-, -, -, ⟨first, second, hwarnings, hfirst, hsecond⟩, hown⟩ :=
    load_sets_limits environment
  obtain ⟨hg, rfl⟩ := (hfirst _ _).mp hgroup
  obtain ⟨he, rfl⟩ := (hsecond _ _).mp hevaluation
  exact ⟨hg.symm, he.symm, hwarnings, (hown _).1 rfl⟩

end Settings

end Abacus
