import Abacus.Depth
import Abacus.Number.Numeral

/-! # Settings

Two depth limits, each read from a variable of the environment. A variable that
is not set or blank leaves its limit at the default; so does one that holds no
positive integer, with a warning. A limit that is too high is lowered, with a
warning.
-/

namespace Abacus

structure Settings where
  groupDepth : Depth.Limit := .default
  evaluationDepth : Depth.Limit := .default

namespace Settings

def groupVariable : String := "CALCLINE_MAX_GROUP_DEPTH"

def evaluationVariable : String := "CALCLINE_MAX_EVALUATION_DEPTH"

inductive Warning where
  | invalid (name value : String)
  | lowered (name : String) (value : Int)
  deriving DecidableEq

def Warning.message : Warning → String
  | invalid name value =>
    "Invalid " ++ name ++ " value '" ++ value ++ "'. Expected a positive integer. Defaulting to "
      ++ toString Depth.Limit.default.1 ++ "."
  | lowered name value =>
    name ++ " value " ++ toString value ++ " exceeds the maximum of "
      ++ toString Depth.greatest ++ ". Using the maximum."

def readLimit (name : String) (text : Option String) : Depth.Limit × Option Warning :=
  let value := Text.strip (text.getD "")
  if value = "" then (.default, none)
  else match Numeral.ofChars? value.toList with
    | none => (.default, some (.invalid name value))
    | some n =>
      if h : n < 1 then (.default, some (.invalid name value))
      else if h' : Depth.greatest < n then (.highest, some (.lowered name n))
      else (⟨n, Int.not_lt.mp h, Int.not_lt.mp h'⟩, none)

/-- The settings that an environment makes, with the warnings in the order of the variables. -/
def load (environment : String → Option String) : Settings × List Warning :=
  let (groupDepth, first) := readLimit groupVariable (environment groupVariable)
  let (evaluationDepth, second) := readLimit evaluationVariable (environment evaluationVariable)
  ({ groupDepth, evaluationDepth }, first.toList ++ second.toList)

inductive Field where
  | groupDepth | evaluationDepth
  deriving DecidableEq

inductive Bound where
  | least | greatest
  deriving DecidableEq

def limit? (n : Int) : Except Bound Depth.Limit :=
  if h : n < 1 then .error .least
  else if h' : Depth.greatest < n then .error .greatest
  else .ok ⟨n, Int.not_lt.mp h, Int.not_lt.mp h'⟩

/-- Settings with the limits given, or the bound that each bad one breaks. -/
def ofLimits? (groupDepth evaluationDepth : Option Int) :
    Except (List (Field × Bound)) Settings :=
  match given groupDepth, given evaluationDepth with
  | .ok g, .ok e => .ok ⟨g, e⟩
  | .error b, .ok _ => .error [(.groupDepth, b)]
  | .ok _, .error b => .error [(.evaluationDepth, b)]
  | .error b, .error b' => .error [(.groupDepth, b), (.evaluationDepth, b')]
where
  given (n : Option Int) : Except Bound Depth.Limit :=
    match n with
    | none => .ok .default
    | some n => limit? n

end Settings

end Abacus
