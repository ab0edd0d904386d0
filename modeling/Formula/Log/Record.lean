/-!
# Log records

A record has a level, the part of the program that it comes from, and a message.
-/

namespace Formula.Log

/-- How important a record is, the most important first. -/
inductive Level where
  | error
  | warn
  | info
  | debug
  | trace
deriving DecidableEq, Repr

namespace Level

def rank : Level → Nat
  | error => 1
  | warn => 2
  | info => 3
  | debug => 4
  | trace => 5

def name : Level → String
  | error => "ERROR"
  | warn => "WARN"
  | info => "INFO"
  | debug => "DEBUG"
  | trace => "TRACE"

end Level

structure Record where
  level : Level
  target : String
  message : String
deriving DecidableEq, Repr

end Formula.Log
