import Abacus.Evaluation.Basic
import Abacus.Line.Scan
import Abacus.Settings
import Abacus.Store

/-! # Sessions

A session runs one line at a time. An assignment is stored as it stands, without
being evaluated; any other line is evaluated with the variables stored so far.
A line that fails leaves the session as it was.
-/

namespace Abacus

structure Session where
  settings : Settings := {}
  store : Store := {}

namespace Session

/-- What a line that does not fail comes to; an assignment keeps all its tokens. -/
inductive Outcome where
  | assigned (name : String) (tokens : List Token)
  | evaluated (tokens : List Token) (value : Number)

namespace Outcome

def value? : Outcome → Option Number
  | assigned .. => none
  | evaluated _ n => some n

def summary : Outcome → String
  | assigned x ts => "Assigned " ++ x ++ ": " ++ Token.lineText (Token.definition ts)
  | evaluated ts n => "Evaluated " ++ Token.lineText ts ++ " -> " ++ n.text

def update : Outcome → Store → Store
  | assigned x ts, store => store.assign x ts
  | evaluated .., store => store

end Outcome

inductive Failure where
  | line (error : Line.Error)
  | evaluation (fault : Evaluation.Fault)

def Failure.diagnostic (source : String) : Failure → Diagnostic
  | line e => e.diagnostic source
  | evaluation f => f.diagnostic

def evaluate (s : Session) (ts : List Token) : Except Evaluation.Fault Number :=
  Evaluation.evaluate s.store.lookup s.settings.evaluationDepth ts

def outcome (s : Session) (line : String) : Except Failure Outcome :=
  match Line.parse s.settings.groupDepth line with
  | .error e => .error (.line e)
  | .ok ts =>
    match Token.target? ts with
    | some x => .ok (.assigned x ts)
    | none =>
      match s.evaluate ts with
      | .error f => .error (.evaluation f)
      | .ok n => .ok (.evaluated ts n)

def execute (s : Session) (line : String) : Except Failure Outcome × Session :=
  match s.outcome line with
  | .error f => (.error f, s)
  | .ok o => (.ok o, { s with store := o.update s.store })

def run (s : Session) : List String → List (Except Failure Outcome) × Session
  | [] => ([], s)
  | line :: lines =>
    let (o, s) := s.execute line
    let (os, s) := s.run lines
    (o :: os, s)

theorem settings_execute (s : Session) (line : String) :
    (s.execute line).2.settings = s.settings := by
  unfold execute
  split <;> rfl

theorem execute_error {s : Session} {line : String} {f : Failure} (h : s.outcome line = .error f) :
    s.execute line = (.error f, s) := by
  rw [execute, h]

theorem run_append (s : Session) (xs ys : List String) :
    s.run (xs ++ ys) = ((s.run xs).1 ++ ((s.run xs).2.run ys).1, ((s.run xs).2.run ys).2) := by
  induction xs generalizing s with
  | nil => rfl
  | cons x xs ih => simp [run, ih]

theorem settings_run (s : Session) (lines : List String) :
    (s.run lines).2.settings = s.settings := by
  induction lines generalizing s with
  | nil => rfl
  | cons line lines ih => simp [run, ih, settings_execute]

theorem length_run (s : Session) (lines : List String) :
    (s.run lines).1.length = lines.length := by
  induction lines generalizing s with
  | nil => rfl
  | cons line lines ih => simp [run, ih]

end Session

end Abacus
