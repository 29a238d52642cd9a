import Abacus.Proofs.Line.Literal
import Abacus.Proofs.Number.Shortest

/-! # The texts of numbers as literals

An integer is written as a literal that denotes it, and so is a float whose text
has no exponent. A text with an exponent begins like a literal and breaks off at
the exponent; the names of the special values are no literals at all.
-/

namespace Abacus

open Line

namespace Decimal

variable {negative : Bool} {whole fraction : List Char} {places : Nat} {d : Decimal}

/-- The decimal that digits before and after a point denote. -/
def pointed (negative : Bool) (whole fraction : List Char) : Decimal :=
  ⟨negative, Nat.ofDigitChars 10 (whole ++ fraction) 0, -fraction.length⟩

theorem pointed_eq (hdigits : Nat.ofDigitChars 10 (whole ++ fraction) 0 = d.digits)
    (hexponent : d.exponent + fraction.length = 0) : pointed d.negative whole fraction = d := by
  have hexponent : -(fraction.length : Int) = d.exponent := by omega
  rw [pointed, hdigits, hexponent]

theorem magnitude_pointed_append_zeros (negative : Bool) (whole fraction : List Char) (k : Nat) :
    (pointed negative whole (fraction ++ List.replicate k '0')).magnitude =
      (pointed negative whole fraction).magnitude := by
  have hten : (10 : Rat) ^ k ≠ 0 := by positivity
  simp only [magnitude, pointed, ← List.append_assoc whole, Nat.ofDigitChars_append,
    Nat.ofDigitChars_replicate_zero, List.length_append, List.length_replicate]
  push_cast
  rw [neg_add, zpow_add₀ (by norm_num), zpow_neg, zpow_neg, zpow_natCast, zpow_natCast]
  field_simp

theorem magnitude_add_exponent (negative : Bool) (digits : Nat) (e f : Int) :
    magnitude ⟨negative, digits, e + f⟩ = magnitude ⟨negative, digits, f⟩ * (10 : Rat) ^ e := by
  rw [magnitude, magnitude, add_comm e, zpow_add₀ (by norm_num), mul_assoc]

theorem exists_eq_dropZeros_append (digits : List Char) :
    ∃ k, digits = dropZeros digits ++ List.replicate k '0' := by
  refine ⟨(digits.reverse.takeWhile (· = '0')).length, ?_⟩
  have hzeros : digits.reverse.takeWhile (· = '0') =
      List.replicate (digits.reverse.takeWhile (· = '0')).length '0' :=
    List.eq_replicate_of_mem fun c hc => by simpa using List.mem_takeWhile_imp hc
  have hsplit := List.takeWhile_append_dropWhile (p := fun c => decide (c = '0'))
    (l := digits.reverse)
  rw [dropZeros, ← List.reverse_replicate, ← hzeros, ← List.reverse_append, hsplit,
    List.reverse_reverse]

theorem dropZeros_sublist (digits : List Char) : (dropZeros digits).Sublist digits := by
  obtain ⟨k, hk⟩ := exists_eq_dropZeros_append digits
  have hsublist := List.sublist_append_left (dropZeros digits) (List.replicate k '0')
  rwa [← hk] at hsublist

theorem fractionText_eq (digits : List Char) :
    fractionText digits = if dropZeros digits = [] then [] else '.' :: dropZeros digits := by
  unfold fractionText
  split
  · next h => rw [if_pos h]
  · next h => rw [if_neg h]

theorem magnitude_pointed_dropZeros (negative : Bool) (whole fraction : List Char) :
    (pointed negative whole (dropZeros fraction)).magnitude =
      (pointed negative whole fraction).magnitude := by
  obtain ⟨k, hk⟩ := exists_eq_dropZeros_append fraction
  conv_rhs => rw [hk]
  exact (magnitude_pointed_append_zeros negative whole _ k).symm

theorem isDigit_dropZeros (hfraction : ∀ c ∈ fraction, c.isDigit) :
    ∀ c ∈ dropZeros fraction, c.isDigit :=
  fun c hc => hfraction c ((dropZeros_sublist fraction).mem hc)

theorem continuesLiteral_append_fractionText (hwhole : ∀ c ∈ whole, c.isDigit)
    (hfraction : ∀ c ∈ fraction, c.isDigit) :
    ∀ c ∈ whole ++ fractionText fraction, continuesLiteral c := by
  intro c hc
  rcases List.mem_append.mp hc with hc | hc
  · exact continuesLiteral_of_isDigit (hwhole c hc)
  · rw [fractionText_eq] at hc
    split_ifs at hc
    · cases hc
    · rcases List.mem_cons.mp hc with rfl | hc
      · rfl
      · exact continuesLiteral_of_isDigit (isDigit_dropZeros hfraction c hc)

theorem markFraction_minus_append (negative : Bool) (hwhole : ∀ c ∈ whole, c.isDigit)
    (hfraction : ∀ c ∈ fraction, c.isDigit) :
    ∃ fraction', (∀ c ∈ fraction', c.isDigit) ∧
      Single.markFraction (minus negative ++ (whole ++ fractionText fraction)) =
        minus negative ++ (whole ++ '.' :: fraction') ∧
      (pointed negative whole fraction').magnitude =
        (pointed negative whole fraction).magnitude := by
  have hkept := magnitude_pointed_dropZeros negative whole fraction
  rw [fractionText_eq, Single.markFraction]
  by_cases hempty : dropZeros fraction = []
  · refine ⟨['0'], List.forall_mem_singleton.mpr rfl, ?_, ?_⟩
    · rw [if_pos hempty, List.append_nil, if_neg, List.append_assoc]
      intro h
      obtain ⟨c, hc, h⟩ := List.any_eq_true.mp h
      simp only [Bool.or_eq_true, decide_eq_true_eq] at h
      rcases h with rfl | rfl
      · exact absurd (hwhole '.' ((mem_minus_append (by decide)).mp hc)) (by decide)
      · exact absurd (hwhole 'e' ((mem_minus_append (by decide)).mp hc)) (by decide)
    · rw [← hkept, hempty]
      exact magnitude_pointed_append_zeros negative whole [] 1
  · refine ⟨dropZeros fraction, isDigit_dropZeros hfraction, ?_, hkept⟩
    rw [if_neg hempty, if_pos]
    exact List.any_eq_true.mpr ⟨'.', by simp, rfl⟩

def leading (d : Decimal) : Int :=
  d.exponent + (Nat.toDigits 10 d.digits).length - 1

theorem isDigit_toDigits (n : Nat) : ∀ c ∈ Nat.toDigits 10 n, c.isDigit :=
  fun _ hc => Nat.isDigit_of_mem_toDigits (by decide) (by decide) hc

theorem general_eq (places : Nat) (d : Decimal) :
    d.general places = minus d.negative ++
      if d.leading < -4 ∨ places ≤ d.leading then
        (Nat.toDigits 10 d.digits).take 1 ++ fractionText ((Nat.toDigits 10 d.digits).drop 1) ++
          exponentText d.leading
      else if d.leading < 0 then
        '0' :: fractionText
          (List.replicate (d.leading.natAbs - 1) '0' ++ Nat.toDigits 10 d.digits)
      else
        (Nat.toDigits 10 d.digits).take (d.leading.toNat + 1) ++
          fractionText ((Nat.toDigits 10 d.digits).drop (d.leading.toNat + 1)) := by
  unfold general minus
  split
  · rfl
  · rfl

theorem exists_general_eq_pointed (hexponent : d.exponent ≤ 0)
    (hleading : ¬ (d.leading < -4 ∨ places ≤ d.leading)) :
    ∃ whole fraction, whole ≠ [] ∧ (∀ c ∈ whole, c.isDigit) ∧ (∀ c ∈ fraction, c.isDigit) ∧
      d.general places = minus d.negative ++ (whole ++ fractionText fraction) ∧
      pointed d.negative whole fraction = d := by
  have hdigits := isDigit_toDigits d.digits
  have hvalue : Nat.ofDigitChars 10 (Nat.toDigits 10 d.digits) 0 = d.digits :=
    Nat.ofDigitChars_ten_toDigits
  have hnonempty : Nat.toDigits 10 d.digits ≠ [] := Nat.toDigits_ne_nil
  have hlength : d.leading = d.exponent + (Nat.toDigits 10 d.digits).length - 1 := rfl
  rw [general_eq, if_neg hleading]
  generalize Nat.toDigits 10 d.digits = digits at *
  have hpos : 0 < digits.length := List.length_pos_iff.mpr hnonempty
  split_ifs with hlow
  · refine ⟨['0'], _, List.cons_ne_nil _ _, List.forall_mem_singleton.mpr rfl, ?_, rfl, ?_⟩
    · intro c hc
      rcases List.mem_append.mp hc with hc | hc
      · rw [(List.mem_replicate.mp hc).2]
        rfl
      · exact hdigits c hc
    · apply pointed_eq
      · rw [← List.append_assoc, List.singleton_append, ← List.replicate_succ,
          Nat.ofDigitChars_append, Nat.ofDigitChars_replicate_zero, Nat.mul_zero, hvalue]
      · rw [List.length_append, List.length_replicate]
        omega
  · refine ⟨digits.take (d.leading.toNat + 1), digits.drop (d.leading.toNat + 1), ?_, ?_, ?_, rfl,
      ?_⟩
    · rw [ne_eq, List.take_eq_nil_iff]
      exact fun h => h.elim (Nat.succ_ne_zero _) hnonempty
    · exact fun c hc => hdigits c (List.mem_of_mem_take hc)
    · exact fun c hc => hdigits c (List.mem_of_mem_drop hc)
    · apply pointed_eq
      · rw [List.take_append_drop, hvalue]
      · rw [List.length_drop]
        omega

theorem exists_general_eq_scientific (hleading : d.leading < -4 ∨ places ≤ d.leading) :
    ∃ whole fraction, whole ≠ [] ∧ (∀ c ∈ whole, c.isDigit) ∧ (∀ c ∈ fraction, c.isDigit) ∧
      d.general places = minus d.negative ++
        (whole ++ fractionText fraction ++ exponentText d.leading) ∧
      (pointed d.negative whole fraction).magnitude * (10 : Rat) ^ d.leading = d.magnitude := by
  have hdigits := isDigit_toDigits d.digits
  have hvalue : Nat.ofDigitChars 10 (Nat.toDigits 10 d.digits) 0 = d.digits :=
    Nat.ofDigitChars_ten_toDigits
  have hnonempty : Nat.toDigits 10 d.digits ≠ [] := Nat.toDigits_ne_nil
  have hlength : d.leading = d.exponent + (Nat.toDigits 10 d.digits).length - 1 := rfl
  rw [general_eq, if_pos hleading]
  generalize Nat.toDigits 10 d.digits = digits at *
  have hpos : 0 < digits.length := List.length_pos_iff.mpr hnonempty
  refine ⟨digits.take 1, digits.drop 1, ?_, ?_, ?_, rfl, ?_⟩
  · rw [ne_eq, List.take_eq_nil_iff]
    exact fun h => h.elim Nat.one_ne_zero hnonempty
  · exact fun c hc => hdigits c (List.mem_of_mem_take hc)
  · exact fun c hc => hdigits c (List.mem_of_mem_drop hc)
  · have hplace : d.leading + -((digits.length - 1 : Nat) : Int) = d.exponent := by omega
    rw [pointed, ← magnitude_add_exponent, List.take_append_drop, hvalue, List.length_drop, hplace]

theorem exists_general_eq_exponent (hleading : d.leading < -4 ∨ places ≤ d.leading) :
    ∃ run more, d.general places = minus d.negative ++ (run ++ 'e' :: more) ∧
      ∀ c ∈ run, continuesLiteral c := by
  obtain ⟨whole, fraction, -, hwhole, hfraction, hgeneral, -⟩ :=
    exists_general_eq_scientific hleading
  exact ⟨whole ++ fractionText fraction, (exponentText d.leading).tail, hgeneral,
    continuesLiteral_append_fractionText hwhole hfraction⟩

end Decimal

namespace Line

/-- Characters that are read as one literal, which may denote no number. -/
def LiteralRun (run : List Char) : Prop :=
  (∀ c ∈ run.head?, startsLiteral c) ∧ ∀ c ∈ run.tail, continuesLiteral c

theorem literalRun_minus_append (negative : Bool) {body : List Char}
    (h : ∀ c ∈ body, continuesLiteral c) : LiteralRun (minus negative ++ body) := by
  cases negative with
  | true => exact ⟨by simp [minus, startsLiteral], h⟩
  | false =>
    refine ⟨fun c hc => ?_, fun c hc => h c (List.mem_of_mem_tail hc)⟩
    have hc : continuesLiteral c := h c (List.mem_of_mem_head? hc)
    simp [startsLiteral, hc]

theorem Literal.literalRun {text : List Char} {n : Number} (h : Literal text n) :
    LiteralRun text := by
  cases h with
  | integer _ _ hdigits _ =>
    exact literalRun_minus_append _ fun c hc => continuesLiteral_of_isDigit (hdigits c hc)
  | @float negative whole fraction _ hdigits =>
    refine literalRun_minus_append _ fun c hc => ?_
    rcases List.mem_append.mp hc with hc | hc
    · exact continuesLiteral_of_isDigit (hdigits c (List.mem_append_left _ hc))
    · rcases List.mem_cons.mp hc with rfl | hc
      · rfl
      · exact continuesLiteral_of_isDigit (hdigits c (List.mem_append_right _ hc))

theorem Literal.exists_eq_cons {text : List Char} {n : Number} (h : Literal text n) :
    ∃ c run, text = c :: run ∧ LiteralRun (c :: run) := by
  have hne : text ≠ [] := by
    cases h with
    | integer hne => exact List.append_ne_nil_of_right_ne_nil _ hne
    | float => simp
  obtain ⟨c, run, rfl⟩ := List.exists_cons_of_ne_nil hne
  exact ⟨c, run, rfl, h.literalRun⟩

theorem LiteralRun.not_mem {run : List Char} {c : Char} (h : LiteralRun run)
    (hc : ¬ startsLiteral c) : c ∉ run := by
  intro hmem
  cases run with
  | nil => cases hmem
  | cons d run =>
    rcases List.mem_cons.mp hmem with rfl | hmem
    · exact hc (h.1 c rfl)
    · have hcontinues : continuesLiteral c := h.2 c hmem
      exact hc (by simp [startsLiteral, hcontinues])

def BreaksOff (text : List Char) : Prop :=
  ∃ run d more, text = run ++ d :: more ∧ LiteralRun run ∧ d.isAlpha

end Line

namespace Single

open Binary

variable {x : Single}

/-- A finite number whose text has no exponent. -/
def IsPositional (x : Single) : Prop :=
  x.IsFinite ∧ 'e' ∉ x.text.toList

theorem isPositional_zero (negative : Bool) : IsPositional (zero negative) := by
  refine ⟨trivial, ?_⟩
  cases negative <;> decide +kernel

theorem toList_text (hx : x.IsFinite) :
    x.text.toList = markFraction ((x.significant x.places).general x.places) := by
  have htext : x.text = String.ofList (markFraction x.shortest) := by
    cases x with
    | nan | infinity => exact hx.elim
    | finite => rfl
  rw [htext, String.toList_ofList, shortest, places?_eq hx]

theorem exponent_significant_nonpos (hx : x.IsFinite) {places : Nat} (hplaces : 0 < places)
    (hleading : (x.significant places).leading < places) :
    (x.significant places).exponent ≤ 0 := by
  obtain ⟨negative, hzero | ⟨a, hlow, -, hdigits⟩⟩ := significant_cases hx places
  · rw [hzero]
  · have ha : 0 < a := (two_zpow_pos _).trans_le hlow
    have hne := Decimal.digits_ofMagnitude_ne_zero negative hplaces ha
    have hlength := (lt_length_toDigits_iff hne).mpr
      (Decimal.le_digits_ofMagnitude negative hplaces ha)
    rw [← hdigits] at hlength
    rw [Decimal.leading] at hleading
    omega

theorem toList_text_eq_general (hx : x.IsFinite)
    (hleading : (x.significant x.places).leading < -4 ∨
      x.places ≤ (x.significant x.places).leading) :
    x.text.toList = (x.significant x.places).general x.places := by
  obtain ⟨run, more, hgeneral, -⟩ := Decimal.exists_general_eq_exponent hleading
  have hmem : 'e' ∈ (x.significant x.places).general x.places := by simp [hgeneral]
  rw [toList_text hx, markFraction, if_pos (List.any_eq_true.mpr ⟨'e', hmem, rfl⟩)]

theorem breaksOff_text (hx : x.IsFinite) (hleading : (x.significant x.places).leading < -4 ∨
    x.places ≤ (x.significant x.places).leading) :
    'e' ∈ x.text.toList ∧ BreaksOff x.text.toList := by
  obtain ⟨run, more, hgeneral, hrun⟩ := Decimal.exists_general_eq_exponent hleading
  rw [toList_text_eq_general hx hleading]
  refine ⟨by simp [hgeneral], minus (x.significant x.places).negative ++ run, 'e', more, ?_,
    literalRun_minus_append _ hrun, by decide⟩
  rw [hgeneral, List.append_assoc]

theorem literal_text (hx : x.IsFinite) (hleading : ¬ ((x.significant x.places).leading < -4 ∨
    x.places ≤ (x.significant x.places).leading)) : Literal x.text.toList (.float x) := by
  have hexponent := exponent_significant_nonpos hx (places_pos hx) (by omega)
  have hvalue := ofDecimal_significant_places hx
  rw [toList_text hx]
  generalize x.significant x.places = d at *
  obtain ⟨whole, fraction, hne, hwhole, hfraction, hgeneral, hpointed⟩ :=
    Decimal.exists_general_eq_pointed hexponent hleading
  obtain ⟨fraction', hfraction', htext, hmagnitude⟩ :=
    Decimal.markFraction_minus_append d.negative hwhole hfraction
  rw [hpointed] at hmagnitude
  have hx : ofDecimal (Decimal.pointed d.negative whole fraction') = x := by
    rw [← hvalue]
    exact ofDecimal_congr rfl hmagnitude
  rw [hgeneral, htext, ← hx]
  refine .float ?_ (List.forall_mem_append.mpr ⟨hwhole, hfraction'⟩)
  exact List.append_ne_nil_of_left_ne_nil hne _

theorem text_cases (x : Single) : x.IsPositional ∧ Literal x.text.toList (.float x) ∨
    ¬ x.IsPositional ∧ BreaksOff x.text.toList := by
  by_cases hx : x.IsFinite
  · by_cases hleading : (x.significant x.places).leading < -4 ∨
        x.places ≤ (x.significant x.places).leading
    · obtain ⟨hmem, htext⟩ := breaksOff_text hx hleading
      exact Or.inr ⟨fun h => h.2 hmem, htext⟩
    · have htext := literal_text hx hleading
      exact Or.inl ⟨⟨hx, htext.literalRun.not_mem (by decide)⟩, htext⟩
  · refine Or.inr ⟨fun h => hx h.1, ?_⟩
    cases x with
    | finite => exact absurd trivial hx
    | nan => exact ⟨[], 'n', ['a', 'n'], rfl, ⟨by simp, by simp⟩, by decide⟩
    | infinity negative =>
      cases negative with
      | false => exact ⟨[], 'i', ['n', 'f'], rfl, ⟨by simp, by simp⟩, by decide⟩
      | true =>
        exact ⟨['-'], 'i', ['n', 'f'], rfl, literalRun_minus_append true (by simp), by decide⟩

end Single

namespace Number

def IsPositional : Number → Prop
  | integer _ => True
  | float x => x.IsPositional

theorem toList_toString (v : Int) :
    (toString v).toList = minus (decide (v < 0)) ++ Nat.toDigits 10 v.natAbs := by
  cases v with
  | ofNat m =>
    have hsign : decide (Int.ofNat m < 0) = false := decide_eq_false (by simp)
    change (toString m).toList = _
    rw [hsign, Nat.toString_eq_repr, Nat.toList_repr]
    rfl
  | negSucc m =>
    have hsign : decide (Int.negSucc m < 0) = true := decide_eq_true (Int.negSucc_lt_zero m)
    change ("-" ++ toString (m + 1)).toList = _
    rw [hsign, Nat.toString_eq_repr, String.toList_append, Nat.toList_repr]
    rfl

theorem literal_text_integer (n : Int32) : Literal (integer n).text.toList (.integer n) := by
  have hlow : -2147483648 ≤ n.toInt := n.le_toInt
  have hhigh : n.toInt < 2147483648 := n.toInt_lt
  have hlength : (Nat.toDigits 10 n.toInt.natAbs).length ≤ 10 :=
    (Nat.length_toDigits_le_iff (by decide) (by decide)).mpr (by omega)
  have htext : (integer n).text.toList = _ := toList_toString n.toInt
  rw [htext]
  refine .integer Nat.toDigits_ne_nil (hlength.trans (by decide)) (Decimal.isDigit_toDigits _) ?_
  rw [Nat.ofDigitChars_ten_toDigits, withSign]
  split_ifs with hsign
  · have hsign := of_decide_eq_true hsign
    omega
  · have hsign := of_decide_eq_false (Bool.eq_false_iff.mpr hsign)
    omega

theorem text_cases (n : Number) : n.IsPositional ∧ Literal n.text.toList n ∨
    ¬ n.IsPositional ∧ BreaksOff n.text.toList := by
  cases n with
  | integer n => exact Or.inl ⟨trivial, literal_text_integer n⟩
  | float x => exact x.text_cases

end Number

end Abacus
