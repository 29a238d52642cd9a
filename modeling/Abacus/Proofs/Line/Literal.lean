import Mathlib.Data.List.TakeWhile
import Abacus.Line.Scan
import Abacus.Proofs.Sequencing

/-! # The texts of numbers

A literal is an optional minus and digits, which denote a 32-bit integer, or an
optional minus and digits with one point among them, which denote a float. The
reader of literals accepts exactly these.
-/

namespace Abacus.Line

def minus (negative : Bool) : List Char :=
  if negative then ['-'] else []

inductive Literal : List Char → Number → Prop where
  /-- The integer exists just when the digits' value is in the range of 32 bits. -/
  | integer {negative : Bool} {digits : List Char} {n : Int32} :
      digits ≠ [] → digits.length ≤ 4300 → (∀ d ∈ digits, d.isDigit) →
      n.toInt = withSign negative (Nat.ofDigitChars 10 digits 0) →
      Literal (minus negative ++ digits) (.integer n)
  | float {negative : Bool} {whole fraction : List Char} :
      whole ++ fraction ≠ [] → (∀ d ∈ whole ++ fraction, d.isDigit) →
      Literal (minus negative ++ (whole ++ '.' :: fraction))
        (.float (.ofDecimal
          ⟨negative, Nat.ofDigitChars 10 (whole ++ fraction) 0, -fraction.length⟩))

theorem integer?_eq_some_iff {v : Int} {n : Int32} : integer? v = some n ↔ n.toInt = v := by
  unfold integer?
  constructor
  · intro h
    split at h
    · next hv =>
      cases h
      exact Int32.toInt_ofInt_of_le hv.1 (Int.lt_of_le_sub_one hv.2)
    · cases h
  · rintro rfl
    rw [if_pos ⟨n.minValue_le_toInt, n.toInt_le⟩, Int32.ofInt_toInt]

theorem digitValue?_of_isDigit {c : Char} (h : c.isDigit) :
    Text.digitValue? c = some (c.toNat - 48) := by
  obtain ⟨h₁, h₂⟩ := Char.isDigit_iff_toNat.mp h
  have hc : (decide (0x30 ≤ c.toNat) && decide (c.toNat ≤ 0x30 + 9)) = true := by
    simp only [Bool.and_eq_true, decide_eq_true_eq]
    exact ⟨h₁, h₂⟩
  have hfind : Text.zeroDigits.find? (fun z => z ≤ c.toNat && c.toNat ≤ z + 9) = some 0x30 :=
    List.find?_cons_of_pos (p := fun z => decide (z ≤ c.toNat) && decide (c.toNat ≤ z + 9)) hc
  rw [Text.digitValue?, hfind]
  rfl

theorem digits?_of_isDigit {ds : List Char} (hne : ds ≠ []) (h : ∀ d ∈ ds, d.isDigit) :
    Numeral.digits? ds = some (ds.map (·.toNat - 48)) := by
  fun_induction Numeral.digits? ds with
  | case1 => exact absurd rfl hne
  | case2 c => simp [digitValue?_of_isDigit (h c (List.mem_singleton_self c))]
  | case3 c rest ih => exact absurd (h '_' (by simp)) (by decide)
  | case4 c rest hrest hrest' ih =>
    obtain ⟨hc, hds⟩ := List.forall_mem_cons.mp h
    have hrest : rest ≠ [] := fun e => hrest e
    rw [digitValue?_of_isDigit hc, ih hrest hds]
    rfl

theorem ofDigits_map (ds : List Char) :
    Numeral.ofDigits (ds.map (·.toNat - 48)) = Nat.ofDigitChars 10 ds 0 := by
  rw [Numeral.ofDigits, List.foldl_map]
  rfl

theorem splitSign_minus_append {negative : Bool} {body : List Char}
    (h : ∀ c ∈ body.head?, continuesLiteral c) :
    splitSign (minus negative ++ body) = (negative, body) := by
  cases negative with
  | true => rfl
  | false =>
    match body with
    | [] => rfl
    | c :: rest =>
      have hc : continuesLiteral c := h c rfl
      change splitSign (c :: rest) = (false, c :: rest)
      unfold splitSign
      split
      · next e =>
        cases e
        exact absurd hc (by decide)
      · next e =>
        cases e
        exact absurd hc (by decide)
      · rfl

theorem numeral_ofChars? {negative : Bool} {body : List Char} (h : ∀ d ∈ body, d.isDigit) :
    Numeral.ofChars? (minus negative ++ body) =
      if body ≠ [] ∧ body.length ≤ 4300
      then some (withSign negative (Nat.ofDigitChars 10 body 0)) else none := by
  have hsign : splitSign (minus negative ++ body) = (negative, body) :=
    splitSign_minus_append fun c hc => by
      simp [continuesLiteral, h c (List.mem_of_mem_head? hc)]
  simp only [Numeral.ofChars?, hsign]
  by_cases hne : body = []
  · subst hne
    rfl
  · simp [digits?_of_isDigit hne h, hne, ofDigits_map, Numeral.digitLimit]

theorem mantissa?_eq_some_iff {body : List Char} (hpoint : '.' ∈ body) {v : Nat × Nat} :
    Decimal.mantissa? body = some v ↔ ∃ whole fraction, body = whole ++ '.' :: fraction ∧
      whole ++ fraction ≠ [] ∧ (∀ d ∈ whole ++ fraction, d.isDigit) ∧
      v = (Nat.ofDigitChars 10 (whole ++ fraction) 0, fraction.length) := by
  constructor
  · intro h
    simp only [Decimal.mantissa?, Option.bind_eq_some_iff] at h
    obtain ⟨fraction, hfraction, h⟩ := h
    have hwhole : ∀ d ∈ body.takeWhile Char.isDigit, d.isDigit := fun d hd =>
      List.mem_takeWhile_imp hd
    have hbody := List.takeWhile_append_dropWhile (p := Char.isDigit) (l := body)
    split at hfraction
    · next hrest =>
      exact absurd (List.dropWhile_eq_nil_iff.mp hrest '.' hpoint) (by decide)
    · next c rest hrest =>
      split at hfraction
      · next hc =>
        obtain rfl := Option.some.inj hfraction
        obtain ⟨rfl, hdigits⟩ := hc
        rw [hrest] at hbody
        refine ⟨body.takeWhile Char.isDigit, rest, hbody.symm, ?_, ?_, ?_⟩
        · intro e
          obtain ⟨e₁, e₂⟩ := List.append_eq_nil_iff.mp e
          simp [e₁, e₂] at h
        · intro d hd
          rcases List.mem_append.mp hd with hd | hd
          · exact hwhole d hd
          · exact List.all_eq_true.mp hdigits d hd
        · split at h
          · cases h
          · exact (Option.some.inj h).symm
      · cases hfraction
  · rintro ⟨whole, fraction, rfl, hne, hdigits, rfl⟩
    obtain ⟨hwhole, hfraction⟩ := List.forall_mem_append.mp hdigits
    have htake : (whole ++ '.' :: fraction).takeWhile Char.isDigit = whole := by
      rw [List.takeWhile_append_of_pos hwhole, List.takeWhile_cons_of_neg (by decide),
        List.append_nil]
    have hdrop : (whole ++ '.' :: fraction).dropWhile Char.isDigit = '.' :: fraction := by
      rw [List.dropWhile_append_of_pos hwhole, List.dropWhile_cons_of_neg (by decide)]
    have hall : fraction.all Char.isDigit = true := List.all_eq_true.mpr hfraction
    have hempty : whole = [] → fraction ≠ [] := by
      rintro rfl rfl
      exact hne rfl
    simpa [Decimal.mantissa?, htake, hdrop, hall] using hempty

theorem not_isExponentMark {c : Char} (h : continuesLiteral c) :
    Decimal.isExponentMark c = false := by
  rw [Bool.eq_false_iff]
  intro he
  simp only [Decimal.isExponentMark, Bool.or_eq_true, decide_eq_true_eq] at he
  rcases he with rfl | rfl
  · exact absurd h (by decide)
  · exact absurd h (by decide)

theorem decimal_ofChars? {negative : Bool} {body : List Char}
    (h : ∀ c ∈ body, continuesLiteral c) :
    Decimal.ofChars? (minus negative ++ body) =
      (Decimal.mantissa? body).map fun v => ⟨negative, v.1, -v.2⟩ := by
  have hmark : ∀ c ∈ body, (!Decimal.isExponentMark c) = true := fun c hc => by
    rw [not_isExponentMark (h c hc)]
    rfl
  have htake : body.takeWhile (!Decimal.isExponentMark ·) = body :=
    List.takeWhile_eq_self_iff.mpr hmark
  have hdrop : body.dropWhile (!Decimal.isExponentMark ·) = [] :=
    List.dropWhile_eq_nil_iff.mpr hmark
  have hhead : ∀ c ∈ body.head?, continuesLiteral c := fun c hc => h c (List.mem_of_mem_head? hc)
  simp only [Decimal.ofChars?, splitSign_minus_append hhead, htake, hdrop]
  cases Decimal.mantissa? body <;> rfl

theorem isDigit_of_continuesLiteral {c : Char} (h : continuesLiteral c) (hc : c ≠ '.') :
    c.isDigit := by
  simpa [continuesLiteral, hc] using h

theorem mem_minus_append {c : Char} {negative : Bool} {body : List Char} (h : c ≠ '-') :
    c ∈ minus negative ++ body ↔ c ∈ body := by
  cases negative <;> simp [minus, h]

theorem continuesLiteral_of_isDigit {c : Char} (h : c.isDigit) : continuesLiteral c := by
  simp [continuesLiteral, h]

theorem literal_of_literal? (negative : Bool) {body : List Char}
    (h : ∀ c ∈ body, continuesLiteral c) {n : Number}
    (hn : literal? (minus negative ++ body) = some n) : Literal (minus negative ++ body) n := by
  by_cases hpoint : '.' ∈ body
  · rw [literal?, if_pos ((mem_minus_append (by decide)).mpr hpoint), decimal_ofChars? h] at hn
    simp only [Option.map_map, Option.map_eq_some_iff, mantissa?_eq_some_iff hpoint] at hn
    obtain ⟨_, ⟨whole, fraction, rfl, hne, hdigits, rfl⟩, rfl⟩ := hn
    exact .float hne hdigits
  · have hdigits : ∀ d ∈ body, d.isDigit := fun d hd =>
      isDigit_of_continuesLiteral (h d hd) fun e => hpoint (e ▸ hd)
    rw [literal?, if_neg (mt (mem_minus_append (by decide)).mp hpoint),
      numeral_ofChars? hdigits] at hn
    simp only [Option.map_eq_some_iff, Option.bind_eq_some_iff, integer?_eq_some_iff] at hn
    obtain ⟨m, ⟨v, hv, hm⟩, rfl⟩ := hn
    split at hv
    · next hbody =>
      cases hv
      exact .integer hbody.1 hbody.2 hdigits hm
    · cases hv

theorem literal?_of_literal {text : List Char} {n : Number} (h : Literal text n) :
    literal? text = some n := by
  cases h with
  | @integer negative digits n hne hlength hdigits hn =>
    have hpoint : '.' ∉ minus negative ++ digits := fun hp =>
      absurd (hdigits '.' ((mem_minus_append (by decide)).mp hp)) (by decide)
    rw [literal?, if_neg hpoint, numeral_ofChars? hdigits, if_pos ⟨hne, hlength⟩,
      Option.bind_some, integer?_eq_some_iff.mpr hn, Option.map_some]
  | @float negative whole fraction hne hdigits =>
    have hbody : '.' ∈ whole ++ '.' :: fraction := by simp
    have hcontinues : ∀ c ∈ whole ++ '.' :: fraction, continuesLiteral c := by
      intro c hc
      by_cases hd : c = '.'
      · subst hd
        rfl
      · refine continuesLiteral_of_isDigit (hdigits c ?_)
        simpa [hd] using hc
    rw [literal?, if_pos ((mem_minus_append (by decide)).mpr hbody), decimal_ofChars? hcontinues,
      (mantissa?_eq_some_iff hbody).mpr ⟨whole, fraction, rfl, hne, hdigits, rfl⟩]
    rfl

/-- What begins and goes on like a literal is read as a number just when it is the text of one. -/
theorem literal?_eq_some_iff {c : Char} {run : List Char} (hc : startsLiteral c)
    (hrun : ∀ d ∈ run, continuesLiteral d) {n : Number} :
    literal? (c :: run) = some n ↔ Literal (c :: run) n := by
  refine ⟨fun h => ?_, literal?_of_literal⟩
  by_cases hminus : c = '-'
  · subst hminus
    exact literal_of_literal? true hrun h
  · have hc : continuesLiteral c := by simpa [startsLiteral, hminus] using hc
    exact literal_of_literal? false (List.forall_mem_cons.mpr ⟨hc, hrun⟩) h

end Abacus.Line
