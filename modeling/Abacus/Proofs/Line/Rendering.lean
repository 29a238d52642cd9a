import Abacus.Proofs.Line.NumberText
import Abacus.Proofs.Shape

/-! # Lines written out

The text of a list of tokens is read back to the list just when the list has the
shape of a line, its names are names, and its numbers are finite and written
without an exponent. A line that has been read has the shape and the names, but
may have other numbers.
-/

namespace Abacus

open Line

namespace Token

inductive Within (t : Token) : List Token → Prop where
  | here {ts : List Token} : t ∈ ts → Within t ts
  | inside {ts us : List Token} : .group us ∈ ts → Within t us → Within t ts

def IsName (x : String) : Prop :=
  ∃ c run, x.toList = c :: run ∧ c.isAlpha ∧ ∀ d ∈ run, d.isAlphanum

/-- The shape of a line, with names and numbers that are read as they are written. -/
structure IsSource (depth : Nat) (ts : List Token) : Prop where
  shape : IsExpression depth ts ∨ ∃ x, IsAssignment depth x ts
  names : ∀ x, Within (.identifier x) ts → IsName x
  numbers : ∀ n, Within (.value n) ts → n.IsPositional

variable {t u : Token} {ts us : List Token}

theorem within_cons_iff : Within t (u :: ts) ↔ Within t [u] ∨ Within t ts := by
  constructor
  · rintro (h | ⟨h, hinside⟩)
    · rcases List.mem_cons.mp h with rfl | h
      · exact Or.inl (.here List.mem_cons_self)
      · exact Or.inr (.here h)
    · rcases List.mem_cons.mp h with rfl | h
      · exact Or.inl (.inside List.mem_cons_self hinside)
      · exact Or.inr (.inside h hinside)
  · rintro ((h | ⟨h, hinside⟩) | (h | ⟨h, hinside⟩))
    · exact .here (List.mem_singleton.mp h ▸ List.mem_cons_self)
    · exact .inside (List.mem_singleton.mp h ▸ List.mem_cons_self) hinside
    · exact .here (List.mem_cons_of_mem _ h)
    · exact .inside (List.mem_cons_of_mem _ h) hinside

theorem within_singleton_iff :
    Within t [u] ↔ t = u ∨ ∃ us, u = .group us ∧ Within t us := by
  constructor
  · rintro (h | ⟨h, hinside⟩)
    · exact Or.inl (List.mem_singleton.mp h)
    · exact Or.inr ⟨_, (List.mem_singleton.mp h).symm, hinside⟩
  · rintro (rfl | ⟨us, rfl, h⟩)
    · exact .here List.mem_cons_self
    · exact .inside List.mem_cons_self h

theorem Within.of_cons (h : Within t (u :: ts)) (hne : t ≠ u) (hu : ∀ us, u ≠ .group us) :
    Within t ts := by
  rcases within_cons_iff.mp h with h | h
  · rcases within_singleton_iff.mp h with h | ⟨us, h, -⟩
    · exact absurd h hne
    · exact absurd h (hu us)
  · exact h

theorem lineText_singleton (t : Token) : lineText [t] = t.text := by
  simp only [lineText, texts, String.intercalate_singleton]

theorem toList_lineText_cons (t : Token) (hts : ts ≠ []) :
    (lineText (t :: ts)).toList = t.text.toList ++ ' ' :: (lineText ts).toList := by
  have htexts : texts ts ≠ [] := by
    rw [texts_eq_map]
    exact List.map_eq_nil_iff.not.mpr hts
  rw [lineText, texts, String.intercalate_cons_of_ne_nil htexts, String.toList_append,
    String.toList_append, List.append_assoc]
  rfl

theorem toList_text_operator (op : Operator) : (operator op).text.toList = [op.symbol] := by
  rw [text, Char.toString, String.toList_singleton]

theorem toList_text_assignment : assignment.text.toList = ['='] := by
  rw [text]
  rfl

theorem toList_lineText_mark (t : Token) {c : Char} (hu : u.text.toList = [c]) (hts : ts ≠ []) :
    (lineText (t :: u :: ts)).toList =
      t.text.toList ++ ' ' :: c :: ' ' :: (lineText ts).toList := by
  rw [toList_lineText_cons _ (List.cons_ne_nil _ _), toList_lineText_cons _ hts, hu]
  rfl

theorem text_group_append (ts : List Token) (rest : List Char) :
    (group ts).text.toList ++ rest = '(' :: ((lineText ts).toList ++ ')' :: rest) := by
  rw [text_group, String.toList_append, String.toList_append, List.append_assoc]
  rfl

end Token

namespace Line

open Token

variable {room : Nat} {ts : List Token} {t : Token} {cs cs₁ cs₂ rest tail : List Char}
  {operand : Token → List Char → List Char → Prop}
  {inner : List Token → List Char → List Char → Prop}

theorem forall_mem_head?_cons {p : Char → Prop} {c : Char} (hc : p c) (cs : List Char) :
    ∀ d ∈ (c :: cs).head?, p d :=
  fun _ hd => Option.some.inj hd ▸ hc

/-- Nothing that a literal or a name goes on with. -/
def Stops (rest : List Char) : Prop :=
  ∀ c ∈ rest.head?, ¬ c.isAlphanum ∧ c ≠ '.'

/-- The end of the line or of a group. -/
def Ends (rest : List Char) : Prop :=
  ∀ c ∈ rest.head?, c = ')'

theorem Ends.stops (h : Ends rest) : Stops rest := by
  intro c hc
  rw [h c hc]
  decide

theorem Ends.not_isSpace (h : Ends rest) : ∀ c ∈ rest.head?, ¬ isSpace c := by
  intro c hc
  rw [h c hc]
  decide

theorem stops_symbol (op : Operator) (rest : List Char) : Stops (op.symbol :: rest) := by
  apply forall_mem_head?_cons
  cases op <;> decide

theorem stops_space (rest : List Char) : Stops (' ' :: rest) :=
  forall_mem_head?_cons (by decide) rest

theorem ends_close (rest : List Char) : Ends (')' :: rest) :=
  forall_mem_head?_cons (p := (· = ')')) rfl rest

theorem Stops.alphanum (h : Stops rest) : ∀ c ∈ rest.head?, ¬ c.isAlphanum :=
  fun c hc => (h c hc).1

theorem Stops.continuesLiteral (h : Stops rest) : ∀ c ∈ rest.head?, ¬ continuesLiteral c := by
  intro c hc hcontinues
  have hdigit := isDigit_of_continuesLiteral hcontinues (h c hc).2
  exact (h c hc).1 (Bool.or_eq_true_iff.mpr (Or.inr hdigit))

theorem Blank.stops (h : Blank cs rest) (hrest : Stops rest) : Stops cs := by
  obtain ⟨ws, hws, rfl⟩ := h
  cases ws with
  | nil => exact hrest
  | cons c ws =>
    apply forall_mem_head?_cons
    rcases eq_of_isSpace (hws c List.mem_cons_self) with rfl | rfl | rfl | rfl <;> decide

theorem name_text {x : String} (hx : IsName x) (hrest : Stops rest) :
    Name x (x.toList ++ rest) rest := by
  obtain ⟨c, run, htext, hc, hrun⟩ := hx
  have hname : x = String.ofList (c :: run) := by rw [← htext, String.ofList_toList]
  rw [htext, hname]
  exact .run hc ⟨hrun, hrest.alphanum⟩

theorem operand_text_value {n : Number} (hn : n.IsPositional) (hrest : Stops rest) :
    Operand inner (.value n) (n.text.toList ++ rest) rest := by
  have hliteral := (n.text_cases.resolve_right fun h => h.1 hn).2
  obtain ⟨c, run, htext, hrun⟩ := hliteral.exists_eq_cons
  rw [htext] at hliteral ⊢
  exact .literal (hrun.1 c rfl) ⟨hrun.2, hrest.continuesLiteral⟩ hliteral

theorem alternation_lineText {shape : Token → Prop} (h : Alternates shape ts)
    (hoperand : ∀ t ∈ ts, shape t → ∀ rest, Stops rest →
      operand t (t.text.toList ++ rest) rest)
    (hrest : Stops rest) : Alternation operand ts ((lineText ts).toList ++ rest) rest := by
  induction h with
  | @last t ht =>
    rw [lineText_singleton]
    exact .last (.refl _) (hoperand t List.mem_cons_self ht rest hrest) (.refl _)
  | @more t op ts ht hts ih =>
    have hts' := ih fun u hu => hoperand u (List.mem_cons_of_mem _ (List.mem_cons_of_mem _ hu))
    rw [toList_lineText_mark t (toList_text_operator op) hts.ne_nil, List.append_assoc]
    refine .more (.refl _) (hoperand t List.mem_cons_self ht _ (stops_space _)) ?_
      (hts'.blank (by decide : isSpace ' '))
    exact (Blank.refl _).cons (by decide)

theorem operand_text {shape : List Token → Prop}
    (hinner : ∀ {us}, .group us ∈ ts → shape us → ∀ rest,
      inner us ((lineText us).toList ++ ')' :: rest) (')' :: rest))
    (hnames : ∀ x, Within (.identifier x) ts → IsName x)
    (hnumbers : ∀ n, Within (.value n) ts → n.IsPositional) (ht : t ∈ ts)
    (hshape : IsOperand shape t) (hrest : Stops rest) :
    Operand inner t (t.text.toList ++ rest) rest := by
  cases t with
  | value n => exact operand_text_value (hnumbers n (.here ht)) hrest
  | identifier x => exact .name (name_text (hnames x (.here ht)) hrest)
  | group us =>
    rw [text_group_append]
    exact .group (hinner ht hshape rest)
  | operator | assignment => exact hshape.elim

theorem expression_lineText (h : IsExpression room ts)
    (hnames : ∀ x, Within (.identifier x) ts → IsName x)
    (hnumbers : ∀ n, Within (.value n) ts → n.IsPositional) (hrest : Ends rest) :
    Expression room ts ((lineText ts).toList ++ rest) rest := by
  induction room generalizing ts rest with
  | zero =>
    refine alternation_lineText h (fun t ht hshape rest hrest => ?_) hrest.stops
    exact operand_text (fun _ hus => hus.elim) hnames hnumbers ht hshape hrest
  | succ room ih =>
    refine alternation_lineText h (fun t ht hshape rest hrest => ?_) hrest.stops
    refine operand_text (fun hmem hus rest => ih hus ?_ ?_ (ends_close rest)) hnames hnumbers ht
      hshape hrest
    · exact fun x hx => hnames x (.inside hmem hx)
    · exact fun n hn => hnumbers n (.inside hmem hn)

theorem derives_lineText (h : IsSource room ts) : Derives room ts (lineText ts).toList := by
  obtain ⟨hshape, hnames, hnumbers⟩ := h
  have hends : Ends [] := nofun
  rcases hshape with hts | ⟨x, us, rfl, hus⟩
  · have hderives := expression_lineText hts hnames hnumbers hends
    rw [List.append_nil] at hderives
    exact .expression hderives
  · have hsub {t : Token} (ht : Within t us) : Within t (.identifier x :: .assignment :: us) :=
      within_cons_iff.mpr (Or.inr (within_cons_iff.mpr (Or.inr ht)))
    have hderives := expression_lineText hus (fun y hy => hnames y (hsub hy))
      (fun n hn => hnumbers n (hsub hn)) hends
    rw [List.append_nil] at hderives
    rw [toList_lineText_mark _ toList_text_assignment hus.ne_nil]
    have hx : IsName x := hnames x (.here List.mem_cons_self)
    refine .assignment (.refl _) (name_text hx (stops_space _)) ?_
      (hderives.blank (by decide : isSpace ' '))
    exact (Blank.refl _).cons (by decide)

theorem Name.isName {x : String} (h : Name x cs rest) : IsName x := by
  cases h with
  | run hc hrun => exact ⟨_, _, String.toList_ofList, hc, hrun.1⟩

theorem Operand.isName
    (hinner : ∀ {us cs rest}, inner us cs rest → ∀ {x}, Within (.identifier x) us → IsName x)
    (h : Operand inner t cs rest) {x : String} (hx : Within (.identifier x) [t]) : IsName x := by
  rcases within_singleton_iff.mp hx with rfl | ⟨us, rfl, hus⟩
  · cases h with
    | name hname => exact hname.isName
  · cases h with
    | group h => exact hinner h hus

theorem Alternation.isName
    (hinner : ∀ {us cs rest}, inner us cs rest → ∀ {x}, Within (.identifier x) us → IsName x)
    (h : Alternation (Operand inner) ts cs rest) {x : String} (hx : Within (.identifier x) ts) :
    IsName x := by
  induction h with
  | last _ ht _ => exact ht.isName hinner hx
  | more _ ht _ _ ih =>
    rcases within_cons_iff.mp hx with hx | hx
    · exact ht.isName hinner hx
    · exact ih (hx.of_cons nofun nofun)

theorem Group.isName (h : Group room ts cs rest) {x : String} (hx : Within (.identifier x) ts) :
    IsName x := by
  induction room generalizing ts cs rest x with
  | zero => exact h.elim
  | succ room ih => exact Alternation.isName ih h hx

theorem Derives.isName (h : Derives room ts cs) {x : String} (hx : Within (.identifier x) ts) :
    IsName x := by
  cases h with
  | expression hts => exact hts.isName Group.isName hx
  | @assignment y us _ _ _ _ _ hname _ hus =>
    by_cases hxy : x = y
    · exact hxy ▸ hname.isName
    · have hx := hx.of_cons (fun e => hxy (Token.identifier.inj e)) nofun
      exact hus.isName Group.isName (hx.of_cons nofun nofun)

theorem exists_text_eq_cons (n : Number) : ∃ c cs, n.text.toList = c :: cs ∧ ¬ isSpace c := by
  rcases n.text_cases with ⟨-, h⟩ | ⟨-, run, d, more, htext, hrun, hd⟩
  · obtain ⟨c, run, htext, hrun⟩ := h.exists_eq_cons
    exact ⟨c, run, htext, not_isSpace_of_startsLiteral (hrun.1 c rfl)⟩
  · rw [htext]
    cases run with
    | nil => exact ⟨d, more, rfl, not_isSpace_of_isAlpha hd⟩
    | cons c run => exact ⟨c, _, rfl, not_isSpace_of_startsLiteral (hrun.1 c rfl)⟩

theorem Operand.not_isSpace (h : Operand inner t cs rest) (tail : List Char) :
    (∀ c ∈ (t.text.toList ++ tail).head?, ¬ isSpace c) ∧ ∀ c ∈ cs.head?, ¬ isSpace c := by
  cases h with
  | @literal c run rest n hc =>
    obtain ⟨d, ds, htext, hd⟩ := exists_text_eq_cons n
    refine ⟨?_, forall_mem_head?_cons (not_isSpace_of_startsLiteral hc) _⟩
    rw [text, htext]
    exact forall_mem_head?_cons hd _
  | name hname =>
    cases hname with
    | run hc =>
      refine ⟨?_, forall_mem_head?_cons (not_isSpace_of_isAlpha hc) _⟩
      rw [text, String.toList_ofList]
      exact forall_mem_head?_cons (not_isSpace_of_isAlpha hc) _
  | group =>
    refine ⟨?_, forall_mem_head?_cons (by decide) _⟩
    rw [text_group_append]
    exact forall_mem_head?_cons (by decide) _

theorem LiteralRun.rest_eq {c d : Char} {run run' : List Char} (h : LiteralRun (c :: run'))
    (htail : ∀ d ∈ tail.head?, ¬ continuesLiteral d) (hrun : Run continuesLiteral run rest)
    (e : c :: run' ++ tail = d :: run ++ rest) : rest = tail :=
  hrun.unique ⟨h.2, htail⟩ (List.cons.inj e).2.symm

theorem isPositional_of_text {n : Number} {c : Char} {run : List Char} (hc : startsLiteral c)
    (hrun : Run continuesLiteral run rest) (hrest : Stops rest) (htail : Stops tail)
    (e : n.text.toList ++ tail = c :: run ++ rest) : rest = tail ∧ n.IsPositional := by
  rcases n.text_cases with ⟨hn, h⟩ | ⟨-, run', d, more, htext, hrun', hd⟩
  · obtain ⟨c', run', htext, hrun'⟩ := h.exists_eq_cons
    rw [htext] at e
    exact ⟨hrun'.rest_eq htail.continuesLiteral hrun e, hn⟩
  -- A letter that ends the text of a number would have to stand where the literal stops.
  · exfalso
    rw [htext, List.append_assoc] at e
    cases run' with
    | nil =>
      obtain rfl : d = c := (List.cons.inj e).1
      exact not_startsLiteral_of_isAlpha hd hc
    | cons c' run' =>
      have hstop : ¬ continuesLiteral d := fun hcontinues =>
        not_startsLiteral_of_isAlpha hd (by simp [startsLiteral, hcontinues])
      obtain rfl := hrun'.rest_eq (forall_mem_head?_cons hstop _) hrun e
      exact (hrest d rfl).1 (Bool.or_eq_true_iff.mpr (Or.inl hd))

/-- A group that its own text is read to ends with the text, and its numbers have no exponent. -/
def Recovers (inner : List Token → List Char → List Char → Prop) : Prop :=
  ∀ {us tail rest}, inner us ((lineText us).toList ++ ')' :: tail) (')' :: rest) →
    rest = tail ∧ ∀ n, Within (.value n) us → n.IsPositional

theorem Operand.of_text (hinner : Recovers inner) (h : Operand inner t (t.text.toList ++ tail) rest)
    (htail : Stops tail) (hrest : Stops rest) :
    rest = tail ∧ ∀ n, Within (.value n) [t] → n.IsPositional := by
  generalize hcs : t.text.toList ++ tail = cs at h
  cases h with
  | literal hc hrun hm =>
    obtain ⟨hrest, hpositional⟩ := isPositional_of_text hc hrun hrest htail hcs
    refine ⟨hrest, fun n hn => ?_⟩
    rcases within_singleton_iff.mp hn with hn | ⟨us, hn, -⟩ <;> cases hn
    exact hpositional
  | name hname =>
    cases hname with
    | run hc hrun =>
      rw [text, String.toList_ofList] at hcs
      refine ⟨(List.append_cancel_left hcs).symm, fun n hn => ?_⟩
      rcases within_singleton_iff.mp hn with hn | ⟨us, hn, -⟩ <;> cases hn
  | @group us cs rest hus =>
    rw [text_group_append] at hcs
    obtain rfl := (List.cons.inj hcs).2
    obtain ⟨hrest, hpositional⟩ := hinner hus
    refine ⟨hrest, fun n hn => ?_⟩
    rcases within_singleton_iff.mp hn with hn | ⟨us', hn, hwithin⟩ <;> cases hn
    exact hpositional n hwithin

theorem Operand.of_text_mark (hinner : Recovers inner) {c : Char} (hc : ¬ isSpace c)
    (hstops : Stops (c :: rest)) (hbefore : Blank cs cs₁) (h : Operand inner t cs₁ cs₂)
    (hafter : Blank cs₂ (c :: rest)) (hcs : Blank cs (t.text.toList ++ ' ' :: c :: tail)) :
    rest = tail ∧ ∀ n, Within (.value n) [t] → n.IsPositional := by
  obtain ⟨htext, hcs₁⟩ := h.not_isSpace (' ' :: c :: tail)
  obtain rfl := hbefore.unique hcs hcs₁ htext
  obtain ⟨rfl, hnumbers⟩ := h.of_text hinner (stops_space _) (hafter.stops hstops)
  have hspace : Blank (' ' :: c :: tail) (c :: tail) := (Blank.refl _).cons (by decide)
  have hmark := hafter.unique hspace (forall_mem_head?_cons hc _) (forall_mem_head?_cons hc _)
  exact ⟨(List.cons.inj hmark).2, hnumbers⟩

theorem Alternation.of_text (hinner : Recovers inner) (h : Alternation (Operand inner) ts cs rest)
    (hcs : Blank cs ((lineText ts).toList ++ tail)) (htail : Ends tail) (hrest : Ends rest) :
    rest = tail ∧ ∀ n, Within (.value n) ts → n.IsPositional := by
  induction h with
  | @last t cs cs₁ cs₂ rest hbefore ht hafter =>
    rw [lineText_singleton] at hcs
    obtain ⟨htext, hcs₁⟩ := ht.not_isSpace tail
    obtain rfl := hbefore.unique hcs hcs₁ htext
    obtain ⟨rfl, hnumbers⟩ := ht.of_text hinner htail.stops (hafter.stops hrest.stops)
    exact ⟨hafter.unique (.refl _) hrest.not_isSpace htail.not_isSpace, hnumbers⟩
  | @more t op ts cs cs₁ cs₂ cs₃ rest hbefore ht hafter hts ih =>
    rw [toList_lineText_mark t (toList_text_operator op) hts.ne_nil, List.append_assoc] at hcs
    obtain ⟨rfl, hnumbers⟩ := ht.of_text_mark hinner (not_isSpace_symbol op) (stops_symbol op _)
      hbefore hafter hcs
    obtain ⟨hrest, hnumbers'⟩ := ih ((Blank.refl _).cons (by decide)) hrest
    refine ⟨hrest, fun n hn => ?_⟩
    rcases within_cons_iff.mp hn with hn | hn
    · exact hnumbers n hn
    · exact hnumbers' n (hn.of_cons nofun nofun)

theorem recovers_group (room : Nat) : Recovers (Group room) := by
  induction room with
  | zero =>
    intro us tail rest h
    exact h.elim
  | succ room ih =>
    intro us tail rest h
    obtain ⟨hrest, hnumbers⟩ :=
      Alternation.of_text ih h (.refl _) (ends_close tail) (ends_close rest)
    exact ⟨(List.cons.inj hrest).2, hnumbers⟩

theorem Expression.isPositional (h : Expression room ts cs []) (hcs : Blank cs (lineText ts).toList)
    {n : Number} (hn : Within (.value n) ts) : n.IsPositional := by
  have hends : Ends [] := nofun
  rw [← List.append_nil (lineText ts).toList] at hcs
  exact (Alternation.of_text (recovers_group room) h hcs hends hends).2 n hn

theorem Derives.isPositional (h : Derives room ts (lineText ts).toList) {n : Number}
    (hn : Within (.value n) ts) : n.IsPositional := by
  generalize hcs : (lineText ts).toList = cs at h
  cases h with
  | expression hts => exact hts.isPositional (hcs ▸ .refl _) hn
  | @assignment x us cs cs₁ cs₂ cs₃ hbefore hname hafter hus =>
    rw [toList_lineText_mark _ toList_text_assignment hus.ne_nil] at hcs
    subst hcs
    have hname : Operand (Group room) (.identifier x) cs₁ cs₂ := .name hname
    have hstops : Stops ('=' :: cs₃) := forall_mem_head?_cons (by decide) _
    obtain ⟨rfl, -⟩ := hname.of_text_mark (recovers_group room) (by decide) hstops hbefore hafter
      (.refl _)
    have hn : Within (.value n) us := (hn.of_cons nofun nofun).of_cons nofun nofun
    exact hus.isPositional ((Blank.refl _).cons (by decide)) hn

theorem derives_lineText_iff : Derives room ts (lineText ts).toList ↔ IsSource room ts := by
  constructor
  · intro h
    exact ⟨h.shape, fun x hx => h.isName hx, fun n hn => h.isPositional hn⟩
  · exact derives_lineText

/-- The text of a list is read back to the list just when the list is that of a line. -/
theorem parse_lineText_eq_ok_iff_isSource {limit : Int} (h : limit ≤ Depth.greatest)
    (ts : List Token) : parse limit (lineText ts) = .ok ts ↔ IsSource limit.toNat ts := by
  constructor
  · intro hread
    exact derives_lineText_iff.mp (derives_of_parse h hread)
  · intro hsource
    exact parse_of_derives h (derives_lineText_iff.mpr hsource)

theorem parse_lineText_eq_ok_iff_isSource_signs :
    (0 : Int) ≤ Depth.greatest ∧ parse 0 "-1 - -0.0" =
      .ok [.value (.integer (-1)), .operator .subtract, .value (.float (.zero true))] := by
  have h : (0 : Int) ≤ Depth.greatest := by decide
  have hsource : IsSource 0
      [.value (.integer (-1)), .operator .subtract, .value (.float (.zero true))] := by
    refine ⟨Or.inl (.more trivial (.last trivial)), fun x hx => ?_, fun n hn => ?_⟩
    · have hx := (hx.of_cons nofun nofun).of_cons nofun nofun
      rcases within_singleton_iff.mp hx with hx | ⟨us, hx, -⟩ <;> cases hx
    · rcases within_cons_iff.mp hn with hn | hn
      · rcases within_singleton_iff.mp hn with hn | ⟨us, hn, -⟩ <;> cases hn
        trivial
      · have hn := hn.of_cons nofun nofun
        rcases within_singleton_iff.mp hn with hn | ⟨us, hn, -⟩ <;> cases hn
        exact Single.isPositional_zero true
  have htext : lineText [.value (.integer (-1)), .operator .subtract,
      .value (.float (.zero true))] = "-1 - -0.0" := by decide +kernel
  rw [← htext]
  exact ⟨h, (parse_lineText_eq_ok_iff_isSource h _).mpr hsource⟩

/-- Of a line that has been read, only infinite numbers and those with an exponent are lost. -/
theorem parse_lineText_eq_ok_iff_isPositional {limit : Depth.Limit} {source : String}
    (h : parse limit source = .ok ts) :
    parse limit (lineText ts) = .ok ts ↔ ∀ n, Within (.value n) ts → n.IsPositional := by
  have hderives := derives_of_parse limit.2.2 h
  constructor
  · intro hread n hn
    exact (derives_of_parse limit.2.2 hread).isPositional hn
  · intro hnumbers
    have hsource : IsSource limit.1.toNat ts :=
      ⟨hderives.shape, fun x hx => hderives.isName hx, hnumbers⟩
    exact parse_of_derives limit.2.2 (derives_lineText hsource)

theorem parse_lineText_eq_ok_iff_isPositional_product :
    parse Depth.Limit.default "2*( -3 )" =
        .ok [.value (.integer 2), .operator .multiply, .group [.value (.integer (-3))]] ∧
      ∀ n, Within (.value n)
        [.value (.integer 2), .operator .multiply, .group [.value (.integer (-3))]] →
          n.IsPositional :=
  have h : parse Depth.Limit.default "2*( -3 )" =
      .ok [.value (.integer 2), .operator .multiply, .group [.value (.integer (-3))]] := rfl
  ⟨h, (parse_lineText_eq_ok_iff_isPositional h).mp rfl⟩

/-- A hundred is written with an exponent, at which the reader stops. -/
theorem exists_parse_lineText_eq_error :
    ∃ ts, parse Depth.Limit.default "100.0" = .ok ts ∧ lineText ts = "1e+02" ∧
      parse Depth.Limit.default (lineText ts) = .error ⟨.expectedOperator "e", 1⟩ := by
  have htext : (parse Depth.Limit.default "100.0").map lineText = .ok "1e+02" := by decide +kernel
  cases h : parse Depth.Limit.default "100.0" with
  | error e =>
    rw [h] at htext
    cases htext
  | ok ts =>
    rw [h] at htext
    have htext : lineText ts = "1e+02" := Except.ok.inj htext
    refine ⟨ts, rfl, htext, ?_⟩
    rw [htext]
    rfl

end Line

end Abacus
