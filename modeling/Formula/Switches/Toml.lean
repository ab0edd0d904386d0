import Formula.Switches.Basic

/-!
# Switches as TOML text

A text gives switches their values, one a line, as `name = true` or `name = false`. Names can be
bare or in quotes; blanks, empty lines and comments are free. Nothing else that TOML can write is a
setting of a switch, so a text with anything else is refused, as is one that sets a switch twice. A
switch that is not set is on.
-/

namespace Formula.Switches

inductive Key where
  | registers
  | callDepth
  | constFolding
deriving DecidableEq, Repr

namespace Key

def name : Key → String
  | registers => "use_registers"
  | callDepth => "use_call_depth"
  | constFolding => "use_const_folding"

def all : List Key := [registers, callDepth, constFolding]

def ofName? (s : String) : Option Key := all.find? fun k ↦ k.name = s

end Key

def get (s : Switches) : Key → Bool
  | .registers => s.useRegisters
  | .callDepth => s.useCallDepth
  | .constFolding => s.useConstFolding

def set (s : Switches) (k : Key) (on : Bool) : Switches :=
  match k with
  | .registers => { s with useRegisters := on }
  | .callDepth => { s with useCallDepth := on }
  | .constFolding => { s with useConstFolding := on }

def toToml (s : Switches) : String :=
  String.join (Key.all.map fun k ↦ k.name ++ " = " ++ (if s.get k then "true" else "false") ++ "\n")

namespace Toml

def isBlank (c : Char) : Bool := c = ' ' || c = '\t'

def skipBlank (cs : List Char) : List Char := cs.dropWhile isBlank

/-- Control characters other than a tab stand nowhere. -/
def isAllowed (c : Char) : Bool := c = '\t' || (0x20 ≤ c.toNat && c.toNat ≠ 0x7f)

def isBare (c : Char) : Bool := c.isAlphanum || c = '_' || c = '-'

def hexDigit? (c : Char) : Option Nat :=
  if c.isDigit then some (c.toNat - '0'.toNat)
  else if 'a' ≤ c ∧ c ≤ 'f' then some (c.toNat - 'a'.toNat + 10)
  else if 'A' ≤ c ∧ c ≤ 'F' then some (c.toNat - 'A'.toNat + 10)
  else none

def charOfHex? (ds : List Char) : Option Char := do
  let n ← ds.foldlM (fun n c ↦ (hexDigit? c).map fun d ↦ 16 * n + d) 0
  if n.isValidChar then return Char.ofNat n else none

def escaped? : Char → Option Char
  | 'b' => some '\x08'
  | 't' => some '\t'
  | 'n' => some '\n'
  | 'f' => some '\x0c'
  | 'r' => some '\r'
  | '"' => some '"'
  | '\\' => some '\\'
  | _ => none

def takeQuoted? (found : List Char) : List Char → Option (List Char × List Char)
  | '"' :: rest => some (found.reverse, rest)
  | '\\' :: 'u' :: a :: b :: c :: d :: rest =>
    match charOfHex? [a, b, c, d] with
    | some ch => takeQuoted? (ch :: found) rest
    | none => none
  | '\\' :: 'U' :: a :: b :: c :: d :: e :: f :: g :: h :: rest =>
    match charOfHex? [a, b, c, d, e, f, g, h] with
    | some ch => takeQuoted? (ch :: found) rest
    | none => none
  | '\\' :: c :: rest =>
    match escaped? c with
    | some ch => takeQuoted? (ch :: found) rest
    | none => none
  | c :: rest => if isAllowed c then takeQuoted? (c :: found) rest else none
  | [] => none

def singleQuote : Char := Char.ofNat 0x27

/-- The rest of a name in single quotes, where every character stands for itself. -/
def takeLiteral? (cs : List Char) : Option (List Char × List Char) :=
  let name := cs.takeWhile (· ≠ singleQuote)
  match cs.dropWhile (· ≠ singleQuote) with
  | _ :: rest => if name.all isAllowed then some (name, rest) else none
  | [] => none

def takeName? : List Char → Option (List Char × List Char)
  | [] => none
  | c :: cs =>
    if c = '"' then takeQuoted? [] cs
    else if c = singleQuote then takeLiteral? cs
    else if isBare c then some ((c :: cs).takeWhile isBare, (c :: cs).dropWhile isBare)
    else none

def takeBool? : List Char → Option (Bool × List Char)
  | 't' :: 'r' :: 'u' :: 'e' :: rest => some (true, rest)
  | 'f' :: 'a' :: 'l' :: 's' :: 'e' :: rest => some (false, rest)
  | _ => none

def isLineEnd (cs : List Char) : Bool :=
  match skipBlank cs with
  | [] => true
  | '#' :: comment => comment.all isAllowed
  | _ => false

/-- What a line sets; a line of blanks or a comment sets nothing. -/
def readLine? (cs : List Char) : Option (Option (Key × Bool)) :=
  if isLineEnd cs then some none
  else do
    let (name, cs) ← takeName? (skipBlank cs)
    let key ← Key.ofName? (String.ofList name)
    match skipBlank cs with
    | '=' :: cs =>
      let (on, cs) ← takeBool? (skipBlank cs)
      if isLineEnd cs then some (some (key, on)) else none
    | _ => none

/-- Sets what the lines set, each switch at most once. -/
def readLines? (s : Switches) (seen : List Key) : List (List Char) → Option Switches
  | [] => some s
  | line :: lines =>
    match readLine? line with
    | none => none
    | some none => readLines? s seen lines
    | some (some (key, on)) =>
      if seen.contains key then none else readLines? (s.set key on) (key :: seen) lines

def dropReturn (line : List Char) : List Char :=
  if line.getLast? = some '\r' then line.dropLast else line

/-- The lines of a text. The last one is not followed by a line break. -/
def linesOf (text : String) : List (List Char) :=
  let lines := (text.splitOn "\n").map String.toList
  lines.dropLast.map dropReturn ++ lines.getLast?.toList

/-- A byte order mark may stand first. -/
def dropMark (cs : List Char) : List Char :=
  match cs with
  | '\ufeff' :: rest => rest
  | _ => cs

end Toml

def ofToml? (text : String) : Option Switches :=
  Toml.readLines? {} [] (Toml.linesOf (String.ofList (Toml.dropMark text.toList)))

end Formula.Switches
