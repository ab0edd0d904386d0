import Formula.Log.Record
import Formula.Regex.Compile
import Formula.Text.Blank

/-!
# Which records are shown

A filter is written as directives with commas between them. A directive is a level, a target, or a
target and a level with `=` between them; a target alone shows everything from it. A directive holds
for the targets that start with its own, and the longest one decides. After a slash there may be a
regular expression that messages must match somewhere.
-/

namespace Formula.Log

/-- Shows what comes from a target and is at least as important as the rank. -/
structure Directive where
  target : Option String
  rank : Nat
deriving DecidableEq, Repr

structure Filter where
  directives : List Directive
  pattern : Option Regex
deriving Repr

namespace Filter

def rank? (word : String) : Option Nat :=
  ["off", "error", "warn", "info", "debug", "trace"].findIdx? fun name ↦
    name = String.ofList (word.toList.map Char.toLower)

def trim (s : String) : String :=
  String.ofList (((s.toList.dropWhile Text.isBlank).reverse.dropWhile Text.isBlank).reverse)

/-- The directive that a text writes, or the part of it that makes no sense. -/
def directive (text : String) : Except String Directive :=
  match text.splitOn "=" with
  | [word] =>
    match rank? word with
    | some rank => .ok ⟨none, rank⟩
    | none => .ok ⟨some word, Level.trace.rank⟩
  | [target, word] =>
    let word := trim word
    if word = "" then .ok ⟨some target, Level.trace.rank⟩
    else
      match rank? word with
      | some rank => .ok ⟨some target, rank⟩
      | none => .error word
  | _ => .error text

/-- A later directive for the same target takes the place of an earlier one. -/
def insert (ds : List Directive) (d : Directive) : List Directive :=
  if ds.any fun e ↦ e.target = d.target then ds.map fun e ↦ if e.target = d.target then d else e
  else ds ++ [d]

def Directive.length (d : Directive) : Nat := (d.target.map String.utf8ByteSize).getD 0

/-- Shorter targets first. Without directives only errors are shown. -/
def ofDirectives (ds : List Directive) (pattern : Option Regex) : Filter :=
  let sorted := ds.mergeSort fun a b ↦ Directive.length a ≤ Directive.length b
  ⟨if sorted.isEmpty then [⟨none, Level.error.rank⟩] else sorted, pattern⟩

def complaint (part : String) : String := "invalid logging spec '" ++ part ++ "'"

/-- Reads a filter; parts that make no sense are left out and complained about. -/
def ofText (text : String) : Filter × List String :=
  match text.splitOn "/" with
  | spec :: rest =>
    if 1 < rest.length then (ofDirectives [] none, [complaint text ++ " (too many '/'s)"])
    else
      let parts := ((spec.splitOn ",").map trim).filter (· ≠ "")
      let (ds, complaints) := parts.foldl (fun (ds, complaints) part ↦
        match directive part with
        | .ok d => (insert ds d, complaints)
        | .error what => (ds, complaints ++ [complaint what])) ([], [])
      match rest with
      | [] => (ofDirectives ds none, complaints)
      | pattern :: _ =>
        match Regex.ofText pattern with
        | .ok r => (ofDirectives ds (some r), complaints)
        | .error why =>
          (ofDirectives ds none, complaints ++ ["invalid regex filter - " ++ why.text pattern])
  | [] => (ofDirectives [] none, [])

def Directive.covers (d : Directive) (r : Record) : Bool :=
  match d.target with
  | none => true
  | some target => r.target.startsWith target

def shows (f : Filter) (r : Record) : Bool :=
  let decided := f.directives.reverse.find? fun d ↦ Directive.covers d r
  let enabled := decided.any fun d ↦ r.level.rank ≤ d.rank
  enabled && f.pattern.all fun p ↦ p.isMatch r.message

end Filter

def Record.line (r : Record) : String := "[" ++ r.level.name ++ " " ++ r.target ++ "] " ++ r.message

end Formula.Log
