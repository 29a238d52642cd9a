import Mathlib.Data.List.Find
import Abacus.Proofs.Line.Grammar
import Abacus.Proofs.Line.NumberText

/-! # Texts that read back

The digits of a decimal read back from its general form, with or without an
exponent. So the search for the fewest digits ends, a float reads back from its
text with its sign, and no two numbers share a text.
-/

namespace Abacus

open Line

namespace Decimal

variable {whole fraction : List Char} {places : Nat} {d : Decimal} {e : Int}

theorem mantissa?_of_isDigit (hne : whole ≠ []) (hwhole : ∀ c ∈ whole, c.isDigit) :
    mantissa? whole = some (Nat.ofDigitChars 10 whole 0, 0) := by
  have htake : whole.takeWhile Char.isDigit = whole := List.takeWhile_eq_self_iff.mpr hwhole
  have hdrop : whole.dropWhile Char.isDigit = [] := List.dropWhile_eq_nil_iff.mpr hwhole
  simp [mantissa?, htake, hdrop, hne]

theorem mantissa?_append_fractionText (hne : whole ≠ []) (hwhole : ∀ c ∈ whole, c.isDigit)
    (hfraction : ∀ c ∈ fraction, c.isDigit) :
    mantissa? (whole ++ fractionText fraction) =
      some (Nat.ofDigitChars 10 (whole ++ dropZeros fraction) 0, (dropZeros fraction).length) := by
  rw [fractionText_eq]
  split_ifs with hempty
  · rw [hempty, List.append_nil]
    exact mantissa?_of_isDigit hne hwhole
  · rw [mantissa?_eq_some_iff (by simp)]
    exact ⟨whole, dropZeros fraction, rfl, List.append_ne_nil_of_left_ne_nil hne _,
      List.forall_mem_append.mpr ⟨hwhole, isDigit_dropZeros hfraction⟩, rfl⟩

theorem exponent?_cons {digits : List Char} (hne : digits ≠ [])
    (hdigits : ∀ c ∈ digits, c.isDigit) (hvalue : Nat.ofDigitChars 10 digits 0 = e.natAbs) :
    exponent? ((if e < 0 then '-' else '+') :: digits) = some e := by
  have hsign : splitSign ((if e < 0 then '-' else '+') :: digits) = (decide (e < 0), digits) := by
    split_ifs with h
    · rw [decide_eq_true h]
      rfl
    · rw [decide_eq_false h]
      rfl
  have hempty : digits.isEmpty = false := List.isEmpty_eq_false_iff.mpr hne
  have hall : digits.all Char.isDigit = true := List.all_eq_true.mpr hdigits
  have he : withSign (decide (e < 0)) e.natAbs = e := by
    simp only [withSign, decide_eq_true_eq]
    split_ifs <;> omega
  simp [exponent?, hsign, hempty, hall, hvalue, he]

theorem exponent?_exponentText (e : Int) : exponent? (exponentText e).tail = some e := by
  have hdigits := isDigit_toDigits e.natAbs
  have hvalue : Nat.ofDigitChars 10 (Nat.toDigits 10 e.natAbs) 0 = e.natAbs :=
    Nat.ofDigitChars_ten_toDigits
  rw [exponentText, List.tail_cons]
  by_cases hlength : (Nat.toDigits 10 e.natAbs).length < 2
  · rw [if_pos hlength]
    apply exponent?_cons (List.cons_ne_nil _ _) (List.forall_mem_cons.mpr ⟨rfl, hdigits⟩)
    rw [Nat.ofDigitChars_cons]
    exact hvalue
  · rw [if_neg hlength]
    exact exponent?_cons Nat.toDigits_ne_nil hdigits hvalue

theorem ofChars?_append_exponentText (negative : Bool) (hne : whole ≠ [])
    (hwhole : ∀ c ∈ whole, c.isDigit) (hfraction : ∀ c ∈ fraction, c.isDigit)
    (he : -400 ≤ e ∧ e ≤ 400) :
    ofChars? (minus negative ++ (whole ++ fractionText fraction ++ exponentText e)) =
      some ⟨negative, Nat.ofDigitChars 10 (whole ++ dropZeros fraction) 0,
        e - (dropZeros fraction).length⟩ := by
  have hbody := continuesLiteral_append_fractionText hwhole hfraction
  have hmark : ∀ c ∈ whole ++ fractionText fraction, (!isExponentMark c) = true := fun c hc => by
    rw [not_isExponentMark (hbody c hc)]
    rfl
  have hhead : ∀ c ∈ (whole ++ fractionText fraction ++ exponentText e).head?,
      continuesLiteral c := by
    rw [List.append_assoc, List.head?_append_of_ne_nil _ hne]
    exact fun c hc => continuesLiteral_of_isDigit (hwhole c (List.mem_of_mem_head? hc))
  have htake : (whole ++ fractionText fraction ++ exponentText e).takeWhile
      (!isExponentMark ·) = whole ++ fractionText fraction := by
    rw [List.takeWhile_append_of_pos hmark, exponentText, List.takeWhile_cons_of_neg (by decide),
      List.append_nil]
  have hdrop : (whole ++ fractionText fraction ++ exponentText e).dropWhile
      (!isExponentMark ·) = 'e' :: (exponentText e).tail := by
    rw [List.dropWhile_append_of_pos hmark, exponentText, List.dropWhile_cons_of_neg (by decide),
      List.tail_cons]
  generalize whole ++ fractionText fraction ++ exponentText e = body at *
  -- The bounds on an exponent only widen with the text, so this one lies within them.
  have hfar (n : Nat) : max (-(400 + n : Int)) (min (400 + n) e) = e := by omega
  simp only [ofChars?, splitSign_minus_append hhead, htake, hdrop,
    mantissa?_append_fractionText hne hwhole hfraction, exponent?_exponentText,
    Option.bind_eq_bind, Option.bind_some, hfar]

theorem ofChars?_append_fractionText (negative : Bool) (hne : whole ≠ [])
    (hwhole : ∀ c ∈ whole, c.isDigit) (hfraction : ∀ c ∈ fraction, c.isDigit) :
    ofChars? (minus negative ++ (whole ++ fractionText fraction)) =
      some (pointed negative whole (dropZeros fraction)) := by
  rw [decimal_ofChars? (continuesLiteral_append_fractionText hwhole hfraction),
    mantissa?_append_fractionText hne hwhole hfraction]
  rfl

/-- A decimal reads back from its general form up to zeros at the end of its digits. -/
theorem exists_ofChars?_general (hexponent : d.leading < places → d.exponent ≤ 0)
    (hfar : -400 ≤ d.leading ∧ d.leading ≤ 400) :
    ∃ d', ofChars? (d.general places) = some d' ∧ d'.negative = d.negative ∧
      d'.magnitude = d.magnitude := by
  by_cases hleading : d.leading < -4 ∨ places ≤ d.leading
  · obtain ⟨whole, fraction, hne, hwhole, hfraction, hgeneral, hmagnitude⟩ :=
      exists_general_eq_scientific hleading
    rw [hgeneral, ofChars?_append_exponentText d.negative hne hwhole hfraction hfar]
    refine ⟨_, rfl, rfl, ?_⟩
    rw [sub_eq_add_neg, magnitude_add_exponent, ← hmagnitude,
      ← magnitude_pointed_dropZeros d.negative whole fraction]
    rfl
  · obtain ⟨whole, fraction, hne, hwhole, hfraction, hgeneral, hpointed⟩ :=
      exists_general_eq_pointed (hexponent (by omega)) hleading
    rw [hgeneral, ofChars?_append_fractionText d.negative hne hwhole hfraction]
    refine ⟨_, rfl, rfl, ?_⟩
    rw [magnitude_pointed_dropZeros, hpointed]

theorem zpow_leading_le (hd : d.digits ≠ 0) : (10 : Rat) ^ d.leading ≤ d.magnitude := by
  have hpos : 0 < (Nat.toDigits 10 d.digits).length := Nat.length_toDigits_pos
  have hdigits : 10 ^ ((Nat.toDigits 10 d.digits).length - 1) ≤ d.digits :=
    (lt_length_toDigits_iff hd).mp (by omega)
  have hleading : d.leading =
      ((Nat.toDigits 10 d.digits).length - 1 : Nat) + d.exponent := by
    rw [leading]
    omega
  rw [hleading, zpow_add₀ (by norm_num), zpow_natCast, magnitude]
  exact mul_le_mul_of_nonneg_right (by exact_mod_cast hdigits) (zpow_pos (by norm_num) _).le

theorem magnitude_lt_zpow_leading (hd : d.digits ≠ 0) :
    d.magnitude < (10 : Rat) ^ (d.leading + 1) := by
  have hdigits : d.digits < 10 ^ (Nat.toDigits 10 d.digits).length :=
    Nat.lt_of_not_le fun h => absurd ((lt_length_toDigits_iff hd).mpr h) (Nat.lt_irrefl _)
  have hleading : d.leading + 1 = (Nat.toDigits 10 d.digits).length + d.exponent := by
    rw [leading]
    omega
  rw [hleading, zpow_add₀ (by norm_num), zpow_natCast, magnitude]
  exact mul_lt_mul_of_pos_right (by exact_mod_cast hdigits) (zpow_pos (by norm_num) _)

end Decimal

namespace Single

open Binary

variable {x : Single} {places : Nat}

/-- The text with a given number of significant digits, before a fraction is marked. -/
def candidate (x : Single) (places : Nat) : String :=
  String.ofList ((x.significant places).general places)

theorem leading_significant_bounds (hx : x.IsFinite) (hplaces : 0 < places) :
    -400 ≤ (x.significant places).leading ∧ (x.significant places).leading ≤ 400 := by
  obtain ⟨negative, hzero | ⟨a, hlow, hhigh, hdigits⟩⟩ := significant_cases hx places
  · have hleading : Decimal.leading ⟨negative, 0, 0⟩ = 0 := by simp [Decimal.leading]
    rw [hzero, hleading]
    exact ⟨by decide, by decide⟩
  · have ha : 0 < a := (two_zpow_pos _).trans_le hlow
    have hd := Decimal.digits_ofMagnitude_ne_zero negative hplaces ha
    obtain ⟨hbelow, habove⟩ := Decimal.magnitude_ofMagnitude_bounds negative hplaces ha
    rw [← hdigits] at hd hbelow habove
    generalize x.significant places = d at *
    constructor
    · have h : (10 : Rat) ^ (-151 : Int) < (10 : Rat) ^ (d.leading + 1) := by
        calc (10 : Rat) ^ (-151 : Int) ≤ (2 : Rat) ^ (-149 : Int) / 2 := by norm_num
          _ ≤ a / 2 := div_le_div_of_nonneg_right hlow two_pos.le
          _ ≤ d.magnitude := hbelow
          _ < (10 : Rat) ^ (d.leading + 1) := Decimal.magnitude_lt_zpow_leading hd
      have h := (zpow_lt_zpow_iff_right₀ (by norm_num)).mp h
      omega
    · have h : (10 : Rat) ^ d.leading < (10 : Rat) ^ (129 : Int) := by
        calc (10 : Rat) ^ d.leading ≤ d.magnitude := Decimal.zpow_leading_le hd
          _ ≤ a * 2 := habove
          _ < (2 : Rat) ^ (128 : Int) * 2 := mul_lt_mul_of_pos_right hhigh two_pos
          _ ≤ (10 : Rat) ^ (129 : Int) := by norm_num
      have h := (zpow_lt_zpow_iff_right₀ (by norm_num)).mp h
      omega

theorem ofText?_of_ofChars? {text : String} {d : Decimal}
    (h : Decimal.ofChars? text.toList = some d) : ofText? text = some (ofDecimal d) := by
  unfold ofText?
  split
  · cases h
  · cases h
  · cases h
  · rw [h]
    rfl

theorem ofText?_candidate (hx : x.IsFinite) (hplaces : 0 < places) :
    ofText? (x.candidate places) = some (ofDecimal (x.significant places)) := by
  obtain ⟨d, hread, hnegative, hmagnitude⟩ := Decimal.exists_ofChars?_general
    (exponent_significant_nonpos hx hplaces) (leading_significant_bounds hx hplaces)
  rw [← ofDecimal_congr hnegative hmagnitude]
  apply ofText?_of_ofChars?
  rw [candidate, String.toList_ofList, hread]

theorem readsBack_iff (hx : x.IsFinite) (hplaces : 0 < places) :
    x.readsBack places ↔ ofText? (x.candidate places) = some x := by
  rw [ofText?_candidate hx hplaces, readsBack, decide_eq_true_eq, Option.some.injEq]

/-- Nine digits always read back, so the search finds the fewest that do. -/
theorem find?_ofText?_candidate (hx : x.IsFinite) :
    (List.range' 1 9).find? (fun d => ofText? (x.candidate d) = some x) = some x.places := by
  have hreads : ∀ d ∈ List.range' 1 9,
      decide (ofText? (x.candidate d) = some x) = x.readsBack d := by
    intro d hd
    rw [Bool.eq_iff_iff, decide_eq_true_eq, readsBack_iff hx (List.mem_range'_1.mp hd).1]
  rw [List.find?_congr hreads]
  exact places?_eq hx

theorem ofText?_of_literal {text : String} (h : Literal text.toList (.float x)) :
    ofText? text = some x := by
  have hread := literal?_of_literal h
  unfold literal? at hread
  split at hread
  · obtain ⟨d, hd, hx⟩ := Option.map_eq_some_iff.mp hread
    cases hx
    exact ofText?_of_ofChars? hd
  · obtain ⟨n, -, hx⟩ := Option.map_eq_some_iff.mp hread
    cases hx

theorem ofText?_text (x : Single) : ofText? x.text = some x := by
  by_cases hx : x.IsFinite
  · by_cases hleading : (x.significant x.places).leading < -4 ∨
        x.places ≤ (x.significant x.places).leading
    · have htext : x.text = x.candidate x.places := by
        rw [candidate, ← toList_text_eq_general hx hleading, String.ofList_toList]
      rw [htext, ofText?_candidate hx (places_pos hx), ofDecimal_significant_places hx]
    · exact ofText?_of_literal (literal_text hx hleading)
  · cases x with
    | finite => exact absurd trivial hx
    | nan => rfl
    | infinity negative => cases negative <;> rfl

end Single

namespace Number

theorem text_integer_injective {m n : Int32} (h : (integer m).text = (integer n).text) : m = n := by
  have hm := literal?_of_literal (literal_text_integer m)
  rw [h, literal?_of_literal (literal_text_integer n)] at hm
  cases hm
  rfl

theorem text_integer_ne_text_float (n : Int32) (x : Single) :
    (integer n).text ≠ (float x).text := by
  intro h
  have hinteger := literal_text_integer n
  rw [h] at hinteger
  rcases x.text_cases with ⟨-, hfloat⟩ | ⟨-, run, d, more, htext, -, hd⟩
  · have hread := literal?_of_literal hfloat
    have hread' := literal?_of_literal hinteger
    cases hread.symm.trans hread'
  · refine hinteger.literalRun.not_mem (not_startsLiteral_of_isAlpha hd) ?_
    change d ∈ x.text.toList
    simp [htext]

theorem text_injective {m n : Number} (h : m.text = n.text) : m = n := by
  cases m with
  | integer m =>
    cases n with
    | integer n => rw [text_integer_injective h]
    | float x => exact absurd h (text_integer_ne_text_float m x)
  | float x =>
    cases n with
    | integer n => exact absurd h.symm (text_integer_ne_text_float n x)
    | float y =>
      have hread := x.ofText?_text
      change x.text = y.text at h
      rw [h, y.ofText?_text] at hread
      rw [Option.some.inj hread]

/--
A finite number is written with the first number of digits that read back, which the search always
finds. Every text reads back as its number, and belongs to no other.
-/
theorem text_faithful :
    (∀ x : Single, x.IsFinite →
      (List.range' 1 9).find? (fun d => Single.ofText? (x.candidate d) = some x) =
          some x.places ∧
        (∀ d, 0 < d → d < x.places → Single.ofText? (x.candidate d) ≠ some x) ∧
        x.text.toList = Single.markFraction (x.candidate x.places).toList) ∧
      (∀ x : Single, Single.ofText? x.text = some x) ∧
      (∀ m n : Number, m.text = n.text → m = n) ∧
      ∀ n x, (integer n).text ≠ (float x).text := by
  refine ⟨?_, Single.ofText?_text, fun m n => text_injective, text_integer_ne_text_float⟩
  intro x hx
  have hfind := Single.find?_ofText?_candidate hx
  obtain ⟨-, -, hfewer⟩ := List.find?_range'_eq_some.mp hfind
  refine ⟨hfind, ?_, ?_⟩
  · intro d hd hless hread
    have hnot := hfewer d hd hless
    simp [hread] at hnot
  · rw [Single.toList_text hx, Single.candidate, String.toList_ofList]

theorem text_faithful_least :
    let x : Single := .finite false 1 (-149) (by decide)
    (Number.float x).text = "1e-45" ∧ Single.ofText? "1e-45" = some x ∧
      ∀ n : Number, n.text = "1e-45" → n = .float x := by
  intro x
  have htext : (Number.float x).text = "1e-45" := by decide +kernel
  obtain ⟨-, hread, hinjective, -⟩ := text_faithful
  refine ⟨htext, ?_, ?_⟩
  · rw [← htext]
    exact hread x
  · intro n hn
    exact hinjective n (.float x) (hn.trans htext.symm)

end Number

end Abacus
