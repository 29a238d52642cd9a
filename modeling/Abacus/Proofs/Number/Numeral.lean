import Mathlib.Data.List.Pairwise
import Mathlib.Data.Nat.Digits.Defs
import Abacus.Number.Numeral

/-! # Spellings of integers

An optional sign and decimal digits of any scripts, with single underscores
between them, spell an integer. The reader of numerals takes each spelling of at
most 4300 digits for the integer it spells, and nothing else.
-/

namespace Abacus

namespace Text

/-- The digit `d` of a script stands `d` places after the script's zero. -/
def IsDigit (c : Char) (d : Nat) : Prop :=
  d ≤ 9 ∧ ∃ z ∈ zeroDigits, c.toNat = z + d

theorem pairwise_zeroDigits : zeroDigits.Pairwise fun z z' => z + 9 < z' ∨ z' + 9 < z := by
  decide

theorem eq_of_mem_zeroDigits {z z' n : Nat} (hz : z ∈ zeroDigits) (hz' : z' ∈ zeroDigits)
    (h : z ≤ n ∧ n ≤ z + 9) (h' : z' ≤ n ∧ n ≤ z' + 9) : z = z' := by
  by_contra hne
  have : Std.Symm fun z z' => z + 9 < z' ∨ z' + 9 < z := ⟨fun _ _ => Or.symm⟩
  have hapart : z + 9 < z' ∨ z' + 9 < z := pairwise_zeroDigits.forall hz hz' hne
  omega

theorem digitValue?_eq_some_iff {c : Char} {d : Nat} : digitValue? c = some d ↔ IsDigit c d := by
  have hmem {z : Nat} (h : zeroDigits.find? (fun z => z ≤ c.toNat && c.toNat ≤ z + 9) = some z) :
      z ∈ zeroDigits ∧ z ≤ c.toNat ∧ c.toNat ≤ z + 9 :=
    ⟨List.mem_of_find?_eq_some h, by simpa using List.find?_some h⟩
  unfold digitValue?
  constructor
  · intro h
    obtain ⟨z, hfind, rfl⟩ := Option.map_eq_some_iff.mp h
    obtain ⟨hz, hrange⟩ := hmem hfind
    exact ⟨by omega, z, hz, by omega⟩
  · rintro ⟨hd, z, hz, hc⟩
    cases hfind : zeroDigits.find? fun z => z ≤ c.toNat && c.toNat ≤ z + 9 with
    | none =>
      have hnone := List.find?_eq_none.mp hfind z hz
      simp only [Bool.and_eq_true, decide_eq_true_eq] at hnone
      omega
    | some z' =>
      obtain ⟨hz', hrange⟩ := hmem hfind
      obtain rfl : z = z' := eq_of_mem_zeroDigits hz hz' (by omega) hrange
      rw [Option.map_some, hc, Nat.add_sub_cancel_left]

theorem blanks_apart :
    (blanks.all fun r => zeroDigits.all fun z => r.2 < z || z + 9 < r.1) = true := by
  decide

theorem IsDigit.not_isBlank {c : Char} {d : Nat} (h : IsDigit c d) : isBlank c = false := by
  obtain ⟨hd, z, hz, hc⟩ := h
  refine List.any_eq_false.mpr fun r hr => ?_
  have hapart := List.all_eq_true.mp (List.all_eq_true.mp blanks_apart r hr) z hz
  simp only [Bool.or_eq_true, decide_eq_true_eq] at hapart
  simp only [CharRange.contains, Bool.and_eq_true, decide_eq_true_eq]
  omega

end Text

namespace Numeral

/-- Digits in their order, with or without an underscore between two of them. -/
inductive Digits : List Char → List Nat → Prop where
  | last {c : Char} {d : Nat} : Text.IsDigit c d → Digits [c] [d]
  | next {c : Char} {d : Nat} {cs : List Char} {ds : List Nat} : Text.IsDigit c d → Digits cs ds →
      Digits (c :: cs) (d :: ds)
  | underscore {c : Char} {d : Nat} {cs : List Char} {ds : List Nat} : Text.IsDigit c d →
      Digits cs ds → Digits (c :: '_' :: cs) (d :: ds)

inductive Spells : List Char → Int → Prop where
  | unsigned {cs : List Char} {ds : List Nat} : Digits cs ds → ds.length ≤ 4300 →
      Spells cs (Nat.ofDigits 10 ds.reverse : Nat)
  | plus {cs : List Char} {ds : List Nat} : Digits cs ds → ds.length ≤ 4300 →
      Spells ('+' :: cs) (Nat.ofDigits 10 ds.reverse : Nat)
  | minus {cs : List Char} {ds : List Nat} : Digits cs ds → ds.length ≤ 4300 →
      Spells ('-' :: cs) (-(Nat.ofDigits 10 ds.reverse : Nat))

variable {c : Char} {cs : List Char} {ds : List Nat} {n : Int}

theorem ofDigits_eq (ds : List Nat) : ofDigits ds = Nat.ofDigits 10 ds.reverse := by
  rw [Nat.ofDigits_eq_foldr, List.foldr_reverse, ofDigits]
  simp only [Nat.add_comm, Nat.cast_id]

theorem Digits.ne_nil (h : Digits cs ds) : cs ≠ [] := by
  cases h <;> exact List.cons_ne_nil _ _

theorem not_digits_cons (hc : Text.digitValue? c = none) : ¬ Digits (c :: cs) ds := by
  intro h
  have hdigit : ∃ d, Text.IsDigit c d := by
    cases h with
    | last hd | next hd | underscore hd => exact ⟨_, hd⟩
  obtain ⟨d, hd⟩ := hdigit
  cases hc.symm.trans (Text.digitValue?_eq_some_iff.mpr hd)

theorem digits?_eq_some_iff : digits? cs = some ds ↔ Digits cs ds := by
  constructor
  · intro h
    fun_induction digits? cs generalizing ds with
    | case1 => cases h
    | case2 c =>
      obtain ⟨d, hd, rfl⟩ := Option.map_eq_some_iff.mp h
      exact .last (Text.digitValue?_eq_some_iff.mp hd)
    | case3 c cs ih =>
      obtain ⟨d, hd, h⟩ := Option.bind_eq_some_iff.mp h
      obtain ⟨ds, hds, h⟩ := Option.bind_eq_some_iff.mp h
      cases h
      exact .underscore (Text.digitValue?_eq_some_iff.mp hd) (ih hds)
    | case4 c cs _ _ ih =>
      obtain ⟨d, hd, h⟩ := Option.bind_eq_some_iff.mp h
      obtain ⟨ds, hds, h⟩ := Option.bind_eq_some_iff.mp h
      cases h
      exact .next (Text.digitValue?_eq_some_iff.mp hd) (ih hds)
  · intro h
    induction h with
    | last hc => simp [digits?, Text.digitValue?_eq_some_iff.mpr hc]
    | @next c d cs ds hc h ih =>
      rw [digits?]
      · simp [Text.digitValue?_eq_some_iff.mpr hc, ih]
      · exact h.ne_nil
      · rintro rest rfl
        exact not_digits_cons (by decide) h
    | underscore hc _ ih => simp [digits?, Text.digitValue?_eq_some_iff.mpr hc, ih]

theorem ofChars?_eq_some_iff_digits {text rest : List Char} {negative : Bool}
    (hsign : splitSign text = (negative, rest)) : ofChars? text = some n ↔
      ∃ ds, Digits rest ds ∧ ds.length ≤ 4300 ∧
        n = withSign negative (Nat.ofDigits 10 ds.reverse) := by
  simp only [ofChars?, hsign]
  refine Option.bind_eq_some_iff.trans
    (exists_congr fun ds => and_congr digits?_eq_some_iff ?_)
  rw [ofDigits_eq, digitLimit]
  split_ifs with hlength
  · simp only [hlength, true_and, Option.some.injEq, eq_comm]
  · simp only [hlength, false_and]

theorem splitSign_of_digits (h : Digits cs ds) : splitSign cs = (false, cs) := by
  unfold splitSign
  split
  · exact absurd h (not_digits_cons (by decide))
  · exact absurd h (not_digits_cons (by decide))
  · rfl

/-- The reader accepts exactly the spellings, each as the integer that it spells. -/
theorem ofChars?_eq_some_iff {text : List Char} : ofChars? text = some n ↔ Spells text n := by
  constructor
  · intro h
    rcases hsign : splitSign text with ⟨negative, rest⟩
    obtain ⟨ds, hds, hlength, rfl⟩ := (ofChars?_eq_some_iff_digits hsign).mp h
    unfold splitSign at hsign
    split at hsign
    · cases hsign
      exact .minus hds hlength
    · cases hsign
      exact .plus hds hlength
    · cases hsign
      exact .unsigned hds hlength
  · intro h
    cases h with
    | unsigned hds hlength =>
      exact (ofChars?_eq_some_iff_digits (splitSign_of_digits hds)).mpr ⟨_, hds, hlength, rfl⟩
    | plus hds hlength => exact (ofChars?_eq_some_iff_digits rfl).mpr ⟨_, hds, hlength, rfl⟩
    | minus hds hlength => exact (ofChars?_eq_some_iff_digits rfl).mpr ⟨_, hds, hlength, rfl⟩

theorem Digits.not_isBlank (h : Digits cs ds) : ∀ c ∈ cs, Text.isBlank c = false := by
  induction h with
  | last hc => exact List.forall_mem_singleton.mpr hc.not_isBlank
  | next hc _ ih => exact List.forall_mem_cons.mpr ⟨hc.not_isBlank, ih⟩
  | underscore hc _ ih =>
    exact List.forall_mem_cons.mpr ⟨hc.not_isBlank, List.forall_mem_cons.mpr ⟨by decide, ih⟩⟩

theorem Spells.not_isBlank {text : List Char} (h : Spells text n) :
    ∀ c ∈ text, Text.isBlank c = false := by
  cases h with
  | unsigned hds => exact hds.not_isBlank
  | plus hds | minus hds => exact List.forall_mem_cons.mpr ⟨by decide, hds.not_isBlank⟩

theorem Spells.ne_nil {text : List Char} (h : Spells text n) : text ≠ [] := by
  cases h with
  | unsigned hds => exact hds.ne_nil
  | plus | minus => exact List.cons_ne_nil _ _

end Numeral

end Abacus
