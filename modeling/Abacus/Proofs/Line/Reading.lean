import Abacus.Proofs.Line.Grammar

/-! # Reading follows the grammar

A line is read just when the grammar derives it, and then to the tokens that it
derives. One direction follows the derivation; for the other, whatever is still
to be read completes what has been read so far.
-/

namespace Abacus.Line

variable {limit : Int} {s : Scan} {cs rest : List Char} {frames : List Frame}
  {tokens ts us : List Token} {i : Nat}

def Phase.continues : Phase → Char → Bool
  | .literal _ _, c => continuesLiteral c
  | .name _, c => c.isAlphanum
  | .operand, _ | .operator, _ => false

namespace Scan

/-- Reads on from some state to the end of the line. -/
def read (limit : Int) (s : Scan) (cs : List Char) : Except Error (List Token) :=
  (s.run limit cs).bind finish

theorem read_cons (c : Char) :
    s.read limit (c :: cs) = (s.step limit c).bind (·.read limit cs) := by
  simp only [read, run, List.foldlM_cons]
  cases s.step limit c <;> rfl

theorem step_eq_settle {c : Char} (h : ¬ s.phase.continues c) :
    s.step limit c = s.settle.bind (·.step limit c) := by
  obtain ⟨i, frames, tokens, phase⟩ := s
  cases phase with
  | operand | operator => rfl
  | literal start text =>
    have hc : ¬ continuesLiteral c := h
    simp only [step, hc, settle]
    cases literal? text.reverse <;> rfl
  | name text =>
    have hc : ¬ c.isAlphanum := h
    simp only [step, hc, settle]
    rfl

theorem finish_eq_settle : s.finish = s.settle.bind finish := by
  obtain ⟨i, frames, tokens, phase⟩ := s
  cases phase with
  | operand | operator | name => rfl
  | literal start text =>
    simp only [finish, settle]
    cases literal? text.reverse <;> rfl

theorem read_eq_settle (h : ∀ c ∈ cs.head?, ¬ s.phase.continues c) :
    s.read limit cs = s.settle.bind (·.read limit cs) := by
  cases cs with
  | nil => exact finish_eq_settle
  | cons c cs =>
    rw [read_cons, step_eq_settle (h c rfl)]
    cases s.settle with
    | error => rfl
    | ok s => exact (read_cons c).symm

theorem read_blank (limit : Int) (frames : List Frame) (tokens : List Token) {phase : Phase}
    (hp : phase = .operand ∨ phase = .operator) (h : Blank cs rest) (i : Nat) :
    ∃ k, read limit ⟨i, frames, tokens, phase⟩ cs = read limit ⟨k, frames, tokens, phase⟩ rest := by
  obtain ⟨ws, hws, rfl⟩ := h
  induction ws generalizing i with
  | nil => exact ⟨i, rfl⟩
  | cons c ws ih =>
    obtain ⟨hc, hws⟩ := List.forall_mem_cons.mp hws
    have hstep : step limit ⟨i, frames, tokens, phase⟩ c = .ok ⟨i + 1, frames, tokens, phase⟩ := by
      rcases hp with rfl | rfl
      · simp only [step, operand, hc]
        rfl
      · simp only [step, operator, hc]
        rfl
    obtain ⟨k, hk⟩ := ih (i + 1) hws
    exact ⟨k, by rw [List.cons_append, read_cons, hstep, ← hk]; rfl⟩

theorem read_run {phase : List Char → Phase} {p : Char → Bool} {run : List Char}
    (hstep : ∀ i text c, p c → step limit ⟨i, frames, tokens, phase text⟩ c =
      .ok ⟨i + 1, frames, tokens, phase (c :: text)⟩)
    (hrun : ∀ c ∈ run, p c) (rest : List Char) (i : Nat) (text : List Char) :
    ∃ k, read limit ⟨i, frames, tokens, phase text⟩ (run ++ rest) =
      read limit ⟨k, frames, tokens, phase (run.reverse ++ text)⟩ rest := by
  induction run generalizing i text with
  | nil => exact ⟨i, rfl⟩
  | cons c run ih =>
    obtain ⟨hc, hrun⟩ := List.forall_mem_cons.mp hrun
    obtain ⟨k, hk⟩ := ih hrun (i + 1) (c :: text)
    refine ⟨k, ?_⟩
    rw [List.cons_append, read_cons, hstep i text c hc, List.reverse_cons, List.append_assoc]
    exact hk

theorem read_token (phase : List Char → Phase) {p : Char → Bool} {c : Char} {run : List Char}
    {t : Token} (hrun : Run p run rest) (hp : ∀ text, (phase text).continues = p)
    (hstart : step limit ⟨i, frames, tokens, .operand⟩ c = .ok ⟨i + 1, frames, tokens, phase [c]⟩)
    (hstep : ∀ i text d, p d → step limit ⟨i, frames, tokens, phase text⟩ d =
      .ok ⟨i + 1, frames, tokens, phase (d :: text)⟩)
    (hsettle : ∀ i, settle ⟨i, frames, tokens, phase (c :: run).reverse⟩ =
      .ok ⟨i, frames, t :: tokens, .operator⟩) :
    ∃ k, read limit ⟨i, frames, tokens, .operand⟩ (c :: run ++ rest) =
      read limit ⟨k, frames, t :: tokens, .operator⟩ rest := by
  obtain ⟨k, hk⟩ := read_run hstep hrun.1 rest (i + 1) [c]
  have hstop : ∀ d ∈ rest.head?, ¬ (phase (c :: run).reverse).continues d := by
    rw [hp]
    exact hrun.2
  refine ⟨k, ?_⟩
  rw [List.cons_append, read_cons, hstart]
  refine hk.trans ?_
  rw [← List.reverse_cons, read_eq_settle hstop, hsettle]
  rfl

theorem read_literal {c : Char} {run : List Char} {n : Number} (hc : startsLiteral c)
    (hrun : Run continuesLiteral run rest) (hn : Literal (c :: run) n) (i : Nat) :
    ∃ k, read limit ⟨i, frames, tokens, .operand⟩ (c :: run ++ rest) =
      read limit ⟨k, frames, .value n :: tokens, .operator⟩ rest := by
  have hspace : ¬ isSpace c := not_isSpace_of_startsLiteral hc
  refine read_token (.literal i) hrun (fun _ => rfl) ?_ ?_ ?_
  · simp only [step, operand, hspace, hc]
    rfl
  · intro j text d hd
    simp only [step, hd]
    rfl
  · intro j
    simp only [settle, List.reverse_reverse, literal?_of_literal hn]
    rfl

theorem read_name (limit : Int) (frames : List Frame) (tokens : List Token) {x : String}
    (h : Name x cs rest) (i : Nat) :
    ∃ k, read limit ⟨i, frames, tokens, .operand⟩ cs =
      read limit ⟨k, frames, .identifier x :: tokens, .operator⟩ rest := by
  cases h with
  | @run c run rest hc hrun =>
    refine read_token .name hrun (fun _ => rfl) ?_ ?_ ?_
    · simp only [step, operand, not_isSpace_of_isAlpha hc, not_startsLiteral_of_isAlpha hc, hc]
      rfl
    · intro j text d hd
      simp only [step, hd]
      rfl
    · intro j
      simp only [settle, List.reverse_reverse]
      rfl

theorem read_operand {inner : List Token → List Char → List Char → Prop}
    (hgroup : ∀ {ts cs rest}, inner ts cs (')' :: rest) → ∀ i tokens, ∃ k,
      read limit ⟨i, frames, tokens, .operand⟩ ('(' :: cs) =
        read limit ⟨k, frames, .group ts :: tokens, .operator⟩ rest)
    {t : Token} (h : Operand inner t cs rest) (i : Nat) (tokens : List Token) :
    ∃ k, read limit ⟨i, frames, tokens, .operand⟩ cs =
      read limit ⟨k, frames, t :: tokens, .operator⟩ rest := by
  cases h with
  | literal hc hrun hn => exact read_literal hc hrun hn i
  | name hx => exact read_name limit frames tokens hx i
  | group hts => exact hgroup hts i tokens

theorem step_symbol (op : Operator) (i : Nat) :
    step limit ⟨i, frames, tokens, .operator⟩ op.symbol =
      .ok ⟨i + 1, frames, .operator op :: tokens, .operand⟩ := by
  simp only [step, operator, not_isSpace_symbol op, Operator.ofSymbol?_symbol]
  rfl

theorem read_alternation {operand : Token → List Char → List Char → Prop}
    (hoperand : ∀ {t cs rest}, operand t cs rest → ∀ i tokens, ∃ k,
      read limit ⟨i, frames, tokens, .operand⟩ cs =
        read limit ⟨k, frames, t :: tokens, .operator⟩ rest)
    (h : Alternation operand ts cs rest) (i : Nat) (tokens : List Token) :
    ∃ k, read limit ⟨i, frames, tokens, .operand⟩ cs =
      read limit ⟨k, frames, ts.reverse ++ tokens, .operator⟩ rest := by
  induction h generalizing i tokens with
  | @last t cs cs₁ cs₂ rest hbefore ht hafter =>
    obtain ⟨i₁, h₁⟩ := read_blank limit frames tokens (Or.inl rfl) hbefore i
    obtain ⟨i₂, h₂⟩ := hoperand ht i₁ tokens
    obtain ⟨i₃, h₃⟩ := read_blank limit frames (t :: tokens) (Or.inr rfl) hafter i₂
    exact ⟨i₃, h₁.trans (h₂.trans h₃)⟩
  | @more t op ts cs cs₁ cs₂ cs₃ rest hbefore ht hafter _ ih =>
    obtain ⟨i₁, h₁⟩ := read_blank limit frames tokens (Or.inl rfl) hbefore i
    obtain ⟨i₂, h₂⟩ := hoperand ht i₁ tokens
    obtain ⟨i₃, h₃⟩ := read_blank limit frames (t :: tokens) (Or.inr rfl) hafter i₂
    obtain ⟨i₄, h₄⟩ := ih (i₃ + 1) (.operator op :: t :: tokens)
    refine ⟨i₄, h₁.trans (h₂.trans (h₃.trans ?_))⟩
    have hts : (t :: .operator op :: ts).reverse ++ tokens =
        ts.reverse ++ .operator op :: t :: tokens := by simp
    rw [read_cons, step_symbol, hts]
    exact h₄

theorem read_group {room : Nat} (hroom : frames.length + room ≤ (Depth.effective limit).toNat)
    (h : Group room ts cs (')' :: rest)) (i : Nat) (tokens : List Token) :
    ∃ k, read limit ⟨i, frames, tokens, .operand⟩ ('(' :: cs) =
      read limit ⟨k, frames, .group ts :: tokens, .operator⟩ rest := by
  induction room generalizing frames ts cs rest i tokens with
  | zero => exact h.elim
  | succ room ih =>
    have hopen : step limit ⟨i, frames, tokens, .operand⟩ '(' =
        .ok ⟨i + 1, ⟨i, tokens⟩ :: frames, [], .operand⟩ := by
      have hroom : ¬ Depth.effective limit ≤ frames.length := by omega
      simp only [step, operand, hroom]
      rfl
    have hinner : (⟨i, tokens⟩ :: frames).length + room ≤ (Depth.effective limit).toNat := by
      rw [List.length_cons]
      omega
    obtain ⟨k, hk⟩ := read_alternation (read_operand (ih hinner)) h (i + 1) []
    refine ⟨k + 1, ?_⟩
    rw [read_cons, hopen]
    refine hk.trans ?_
    rw [read_cons]
    change read limit
      ⟨k + 1, frames, .group (ts.reverse ++ []).reverse :: tokens, .operator⟩ rest = _
    rw [List.append_nil, List.reverse_reverse]

theorem read_of_expression {room : Nat}
    (hroom : frames.length + room ≤ (Depth.effective limit).toNat) (h : Expression room ts cs rest)
    (i : Nat) (tokens : List Token) :
    ∃ k, read limit ⟨i, frames, tokens, .operand⟩ cs =
      read limit ⟨k, frames, ts.reverse ++ tokens, .operator⟩ rest :=
  read_alternation (read_operand (read_group hroom)) h i tokens

theorem read_of_derives {room : Nat} (hroom : room ≤ (Depth.effective limit).toNat)
    (h : Derives room ts cs) : read limit {} cs = .ok ts := by
  have hroom : ([] : List Frame).length + room ≤ (Depth.effective limit).toNat := by simpa
  cases h with
  | expression h =>
    obtain ⟨k, hk⟩ := read_of_expression hroom h 0 []
    refine hk.trans ?_
    change Except.ok (ts.reverse ++ []).reverse = _
    rw [List.append_nil, List.reverse_reverse]
  | @assignment x ts cs cs₁ cs₂ cs₃ hbefore hx hafter h =>
    obtain ⟨i₁, h₁⟩ := read_blank limit [] [] (Or.inl rfl) hbefore 0
    obtain ⟨i₂, h₂⟩ := read_name limit [] [] hx i₁
    obtain ⟨i₃, h₃⟩ := read_blank limit [] [.identifier x] (Or.inr rfl) hafter i₂
    obtain ⟨k, hk⟩ := read_of_expression hroom h (i₃ + 1) [.assignment, .identifier x]
    refine h₁.trans (h₂.trans (h₃.trans ?_))
    rw [read_cons]
    refine Eq.trans hk ?_
    change Except.ok (ts.reverse ++ [Token.assignment, Token.identifier x]).reverse = _
    simp

end Scan

/-- What may follow an operand: nothing, or an operator and another alternation. -/
def Continues (operand : Token → List Char → List Char → Prop) (us : List Token)
    (cs rest : List Char) : Prop :=
  (us = [] ∧ Blank cs rest) ∨
    ∃ op vs cs', us = .operator op :: vs ∧ Blank cs (op.symbol :: cs') ∧
      Alternation operand vs cs' rest

/-- The rest of the line completes the list that follows these tokens, and all frames around it. -/
def Resumes (room : Nat) : List Frame → List Token → List Char → List Token → Prop
  | [], tokens, cs, ts =>
    (∃ us, Continues (Operand (Group room)) us cs [] ∧ ts = tokens.reverse ++ us) ∨
      ∃ x us cs', tokens = [.identifier x] ∧ Blank cs ('=' :: cs') ∧ Expression room us cs' [] ∧
        ts = .identifier x :: .assignment :: us
  | frame :: frames, tokens, cs, ts =>
    ∃ us rest, Continues (Operand (Group (room - (frames.length + 1)))) us cs (')' :: rest) ∧
      Resumes room frames (.group (tokens.reverse ++ us) :: frame.before) rest ts

/-- The rest of the line completes what has been scanned. -/
def Completes (room : Nat) (s : Scan) (cs : List Char) (ts : List Token) : Prop :=
  match s.phase with
  | .operand => ∃ t cs₁ cs₂, Blank cs cs₁ ∧ Operand (Group (room - s.frames.length)) t cs₁ cs₂ ∧
      Resumes room s.frames (t :: s.tokens) cs₂ ts
  | .literal _ text => ∃ run rest n, cs = run ++ rest ∧ Run continuesLiteral run rest ∧
      literal? (text.reverse ++ run) = some n ∧ Resumes room s.frames (.value n :: s.tokens) rest ts
  | .name text => ∃ run rest, cs = run ++ rest ∧ Run Char.isAlphanum run rest ∧
      Resumes room s.frames (.identifier (String.ofList (text.reverse ++ run)) :: s.tokens) rest ts
  | .operator => Resumes room s.frames s.tokens cs ts

theorem Continues.blank {operand : Token → List Char → List Char → Prop} {c : Char}
    (hc : isSpace c) (h : Continues operand us cs rest) : Continues operand us (c :: cs) rest := by
  rcases h with ⟨hus, h⟩ | ⟨op, vs, cs', hus, h, hvs⟩
  · exact Or.inl ⟨hus, h.cons hc⟩
  · exact Or.inr ⟨op, vs, cs', hus, h.cons hc, hvs⟩

theorem Continues.alternation {operand : Token → List Char → List Char → Prop} {t : Token}
    {cs₁ cs₂ : List Char} (hbefore : Blank cs cs₁) (ht : operand t cs₁ cs₂)
    (h : Continues operand us cs₂ rest) : Alternation operand (t :: us) cs rest := by
  rcases h with ⟨rfl, h⟩ | ⟨op, vs, cs', rfl, h, hvs⟩
  · exact .last hbefore ht h
  · exact .more hbefore ht h hvs

theorem Continues.operator {operand : Token → List Char → List Char → Prop} (op : Operator)
    (h : Alternation operand us cs rest) :
    Continues operand (.operator op :: us) (op.symbol :: cs) rest :=
  Or.inr ⟨op, us, cs, rfl, .refl _, h⟩

namespace Resumes

variable {room : Nat}

theorem blank {c : Char} (hc : isSpace c) (h : Resumes room frames tokens cs ts) :
    Resumes room frames tokens (c :: cs) ts := by
  cases frames with
  | nil =>
    rcases h with ⟨us, hus, hts⟩ | ⟨x, us, cs', htokens, h, hus, hts⟩
    · exact Or.inl ⟨us, hus.blank hc, hts⟩
    · exact Or.inr ⟨x, us, cs', htokens, h.cons hc, hus, hts⟩
  | cons frame frames =>
    obtain ⟨us, rest, hus, h⟩ := h
    exact ⟨us, rest, hus.blank hc, h⟩

theorem operator {op : Operator} {t : Token} {cs₁ cs₂ : List Char} (hbefore : Blank cs cs₁)
    (ht : Operand (Group (room - frames.length)) t cs₁ cs₂)
    (h : Resumes room frames (t :: .operator op :: tokens) cs₂ ts) :
    Resumes room frames tokens (op.symbol :: cs) ts := by
  cases frames with
  | nil =>
    rcases h with ⟨us, hus, rfl⟩ | ⟨x, us, cs', htokens, -⟩
    · exact Or.inl ⟨_, .operator op (hus.alternation hbefore ht), by simp⟩
    · cases htokens
  | cons frame frames =>
    obtain ⟨us, rest, hus, h⟩ := h
    refine ⟨_, rest, .operator op (hus.alternation hbefore ht), ?_⟩
    simpa using h

theorem close {frame : Frame}
    (h : Resumes room frames (.group tokens.reverse :: frame.before) cs ts) :
    Resumes room (frame :: frames) tokens (')' :: cs) ts :=
  ⟨[], cs, Or.inl ⟨rfl, .refl _⟩, by rwa [List.append_nil]⟩

theorem assign {x : String} {t : Token} {cs₁ cs₂ : List Char} (hbefore : Blank cs cs₁)
    (ht : Operand (Group room) t cs₁ cs₂)
    (h : Resumes room [] [t, .assignment, .identifier x] cs₂ ts) :
    Resumes room [] [.identifier x] ('=' :: cs) ts := by
  rcases h with ⟨us, hus, rfl⟩ | ⟨y, us, cs', htokens, -⟩
  · exact Or.inr ⟨x, t :: us, cs, rfl, .refl _, hus.alternation hbefore ht, rfl⟩
  · cases htokens

end Resumes

section

variable {room : Nat}

theorem completes_of_settle
    (hoperator : ∀ {i frames tokens}, Scan.read limit ⟨i, frames, tokens, .operator⟩ cs = .ok ts →
      Resumes room frames tokens cs ts)
    (hphase : s.phase ≠ .operand) (hstop : ∀ c ∈ cs.head?, ¬ s.phase.continues c)
    (h : s.read limit cs = .ok ts) : Completes room s cs ts := by
  rw [Scan.read_eq_settle hstop] at h
  obtain ⟨i, frames, tokens, phase⟩ := s
  cases phase with
  | operand => exact absurd rfl hphase
  | operator => exact hoperator h
  | literal start text =>
    simp only [Scan.settle] at h
    split at h
    · next n hn => exact ⟨[], cs, n, rfl, .nil hstop, by rwa [List.append_nil], hoperator h⟩
    · cases h
  | name text =>
    refine ⟨[], cs, rfl, .nil hstop, ?_⟩
    rw [List.append_nil]
    exact hoperator h

theorem resumes_nil (h : Scan.read limit ⟨i, frames, tokens, .operator⟩ [] = .ok ts) :
    Resumes room frames tokens [] ts := by
  cases frames with
  | nil =>
    cases h
    exact Or.inl ⟨[], Or.inl ⟨rfl, .refl _⟩, (List.append_nil _).symm⟩
  | cons frame frames => cases h

theorem resumes_cons {c : Char}
    (ih : ∀ {s : Scan} {ts}, s.read limit cs = .ok ts → Completes room s cs ts)
    (h : Scan.read limit ⟨i, frames, tokens, .operator⟩ (c :: cs) = .ok ts) :
    Resumes room frames tokens (c :: cs) ts := by
  rw [Scan.read_cons] at h
  simp only [Scan.step, Scan.operator] at h
  split at h
  · next hc => exact Resumes.blank hc (ih h)
  split at h
  · next op hop =>
    obtain rfl := ofSymbol?_eq_some_iff.mp hop
    obtain ⟨t, cs₁, cs₂, hbefore, ht, h⟩ := ih h
    exact h.operator hbefore ht
  split at h
  · next hc =>
    subst hc
    cases frames with
    | nil => cases h
    | cons frame frames => exact Resumes.close (ih h)
  split at h
  · next hc =>
    subst hc
    unfold Scan.assign at h
    split at h
    · next x hframes htokens =>
      cases hframes
      cases htokens
      obtain ⟨t, cs₁, cs₂, hbefore, ht, h⟩ := ih h
      exact h.assign hbefore ht
    · cases h
  · cases h

theorem completes_operand_cons {c : Char} (hroom : (Depth.effective limit).toNat = room)
    (ih : ∀ {s : Scan} {ts}, s.read limit cs = .ok ts → Completes room s cs ts)
    (h : Scan.read limit ⟨i, frames, tokens, .operand⟩ (c :: cs) = .ok ts) :
    Completes room ⟨i, frames, tokens, .operand⟩ (c :: cs) ts := by
  rw [Scan.read_cons] at h
  simp only [Scan.step, Scan.operand] at h
  split at h
  · next hc =>
    obtain ⟨t, cs₁, cs₂, hbefore, ht, h⟩ := ih h
    exact ⟨t, cs₁, cs₂, hbefore.cons hc, ht, h⟩
  split at h
  · next hc =>
    obtain ⟨run, rest, n, rfl, hrun, hn, h⟩ := ih h
    have hn := (literal?_eq_some_iff hc hrun.1).mp hn
    exact ⟨.value n, _, rest, .refl _, .literal hc hrun hn, h⟩
  split at h
  · next hc =>
    obtain ⟨run, rest, rfl, hrun, h⟩ := ih h
    exact ⟨_, _, rest, .refl _, .name (.run hc hrun), h⟩
  split at h
  · next hc =>
    subst hc
    split at h
    · cases h
    · next hdepth =>
      obtain ⟨t, cs₁, cs₂, hbefore, ht, us, rest, hus, h⟩ := ih h
      refine ⟨.group (t :: us), _, rest, .refl _, .group ?_, h⟩
      have hlevel : room - frames.length = room - (frames.length + 1) + 1 := by omega
      rw [hlevel]
      exact hus.alternation hbefore ht
  · cases h

theorem completes_of_read (hroom : (Depth.effective limit).toNat = room)
    (h : s.read limit cs = .ok ts) : Completes room s cs ts := by
  induction cs generalizing s ts with
  | nil =>
    refine completes_of_settle resumes_nil ?_ (by simp) h
    intro hphase
    obtain ⟨i, frames, tokens, phase⟩ := s
    cases hphase
    cases frames <;> cases h
  | cons c cs ih =>
    obtain ⟨i, frames, tokens, phase⟩ := s
    cases phase with
    | operand => exact completes_operand_cons hroom ih h
    | operator => exact resumes_cons ih h
    | literal start text =>
      by_cases hc : continuesLiteral c
      · rw [Scan.read_cons] at h
        simp only [Scan.step, hc, if_true] at h
        obtain ⟨run, rest, n, rfl, hrun, hn, h⟩ := ih h
        exact ⟨c :: run, rest, n, rfl, hrun.cons hc, by simpa using hn, h⟩
      · refine completes_of_settle (resumes_cons ih) (fun e => nomatch e) ?_ h
        intro d hd
        cases hd
        exact hc
    | name text =>
      by_cases hc : c.isAlphanum
      · rw [Scan.read_cons] at h
        simp only [Scan.step, hc, if_true] at h
        obtain ⟨run, rest, rfl, hrun, h⟩ := ih h
        rw [List.reverse_cons, List.append_assoc] at h
        exact ⟨c :: run, rest, rfl, hrun.cons hc, h⟩
      · refine completes_of_settle (resumes_cons ih) (fun e => nomatch e) ?_ h
        intro d hd
        cases hd
        exact hc

theorem derives_of_completes (h : Completes room {} cs ts) : Derives room ts cs := by
  obtain ⟨t, cs₁, cs₂, hbefore, ht, h⟩ := h
  rcases h with ⟨us, hus, rfl⟩ | ⟨x, us, cs₃, htokens, hafter, hus, rfl⟩
  · exact .expression (hus.alternation hbefore ht)
  · obtain rfl : t = .identifier x := List.singleton_inj.mp htokens
    cases ht with
    | name hx => exact .assignment hbefore hx hafter hus

end

/-- A line is read to the tokens that the grammar derives it with, and to no others. -/
theorem parse_eq_ok_iff_derives {limit : Int} (h : limit ≤ Depth.greatest) (source : String)
    (ts : List Token) :
    parse limit source = .ok ts ↔ Derives limit.toNat ts source.toList := by
  have hroom : (Depth.effective limit).toNat = limit.toNat := by rw [Depth.effective_of_le h]
  constructor
  · intro hread
    exact derives_of_completes (completes_of_read hroom hread)
  · intro hderives
    exact Scan.read_of_derives (Nat.le_of_eq hroom.symm) hderives

theorem parse_eq_ok_iff_derives_signs :
    (1 : Int) ≤ Depth.greatest ∧
      Derives 1 [.identifier "a", .assignment, .value (.integer (-1)), .operator .subtract,
        .group [.value (.integer (-2))]] "a = -1-(-2)".toList :=
  have h : (1 : Int) ≤ Depth.greatest := by decide
  ⟨h, (parse_eq_ok_iff_derives h "a = -1-(-2)" _).mp rfl⟩

end Abacus.Line
