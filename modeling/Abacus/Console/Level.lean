/-! # Log levels

A level names how much a record matters. A threshold shows the records that
matter at least as much.
-/

namespace Abacus.Console

inductive Level where
  | notSet | debug | info | warning | error | critical
  deriving DecidableEq

namespace Level

def rank : Level → Nat
  | notSet => 0
  | debug => 1
  | info => 2
  | warning => 3
  | error => 4
  | critical => 5

def shows (threshold level : Level) : Bool :=
  threshold.rank ≤ level.rank

def label : Level → String
  | notSet => "NOTSET"
  | debug => "DEBUG"
  | info => "INFO"
  | warning => "WARNING"
  | error => "ERROR"
  | critical => "CRITICAL"

/-- The upper case of a letter where it is an ASCII letter; two letters past ASCII have one. -/
def upper (c : Char) : Char :=
  if c = 'ı' then 'I'
  else if c = 'ſ' then 'S'
  else c.toUpper

/-- Two levels have a second name; upper and lower case are the same. -/
def ofName? (name : String) : Option Level :=
  match String.ofList (name.toList.map upper) with
  | "NOTSET" => some notSet
  | "DEBUG" => some debug
  | "INFO" => some info
  | "WARNING" | "WARN" => some warning
  | "ERROR" => some error
  | "CRITICAL" | "FATAL" => some critical
  | _ => none

end Level

end Abacus.Console
