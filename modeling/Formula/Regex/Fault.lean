import Formula.Regex.Span

/-!
# Why a pattern is refused

A `Fault` is a cause with the span it concerns. Its text shows the pattern with carets under the
span; a pattern of several lines is shown with line numbers.
-/

namespace Formula.Regex

inductive Cause where
  | classEscapeInvalid
  | classRangeInvalid
  | classRangeLiteral
  | classUnclosed
  | decimalEmpty
  | decimalInvalid
  | hexEmpty
  | hexInvalid
  | hexDigitInvalid
  | escapeUnfinished
  | escapeUnrecognized
  | flagNegationDangling
  | flagDuplicate
  | flagNegationRepeated
  | flagsUnfinished
  | flagUnrecognized
  | nameDuplicate
  | nameEmpty
  | nameInvalid
  | nameUnfinished
  | groupUnclosed
  | groupUnopened
  | nestedTooDeep (limit : Nat)
  | countInvalid
  | countEmpty
  | countUnclosed
  | repetitionMissing
  | boundaryUnclosed
  | boundaryUnrecognized
  | boundaryUnfinished
  | propertyInvalid
  | backreference
  | lookAround
  | unicodeNotAllowed
  | invalidUtf8
  | propertyNotFound
  | propertyValueNotFound
  | wordClassNotFound
  | caseUnavailable
deriving DecidableEq, Repr

def Cause.message : Cause → String
  | classEscapeInvalid => "invalid escape sequence found in character class"
  | classRangeInvalid => "invalid character class range, the start must be <= the end"
  | classRangeLiteral => "invalid range boundary, must be a literal"
  | classUnclosed => "unclosed character class"
  | decimalEmpty => "decimal literal empty"
  | decimalInvalid => "decimal literal invalid"
  | hexEmpty => "hexadecimal literal empty"
  | hexInvalid => "hexadecimal literal is not a Unicode scalar value"
  | hexDigitInvalid => "invalid hexadecimal digit"
  | escapeUnfinished => "incomplete escape sequence, reached end of pattern prematurely"
  | escapeUnrecognized => "unrecognized escape sequence"
  | flagNegationDangling => "dangling flag negation operator"
  | flagDuplicate => "duplicate flag"
  | flagNegationRepeated => "flag negation operator repeated"
  | flagsUnfinished => "expected flag but got end of regex"
  | flagUnrecognized => "unrecognized flag"
  | nameDuplicate => "duplicate capture group name"
  | nameEmpty => "empty capture group name"
  | nameInvalid => "invalid capture group character"
  | nameUnfinished => "unclosed capture group name"
  | groupUnclosed => "unclosed group"
  | groupUnopened => "unopened group"
  | nestedTooDeep limit =>
    "exceed the maximum number of nested parentheses/brackets (" ++ limit.repr ++ ")"
  | countInvalid => "invalid repetition count range, the start must be <= the end"
  | countEmpty => "repetition quantifier expects a valid decimal"
  | countUnclosed => "unclosed counted repetition"
  | repetitionMissing => "repetition operator missing expression"
  | boundaryUnclosed =>
    "special word boundary assertion is either unclosed or contains an invalid character"
  | boundaryUnrecognized =>
    "unrecognized special word boundary assertion, valid choices are: " ++
      "start, end, start-half or end-half"
  | boundaryUnfinished =>
    "found either the beginning of a special word boundary or a bounded repetition on a \\b " ++
      "with an opening brace, but no closing brace"
  | propertyInvalid => "invalid Unicode character class"
  | backreference => "backreferences are not supported"
  | lookAround => "look-around, including look-ahead and look-behind, is not supported"
  | unicodeNotAllowed => "Unicode not allowed here"
  | invalidUtf8 => "pattern can match invalid UTF-8"
  | propertyNotFound => "Unicode property not found"
  | propertyValueNotFound => "Unicode property value not found"
  | wordClassNotFound =>
    "Unicode-aware Perl class not found (make sure the unicode-perl feature is enabled)"
  | caseUnavailable =>
    "Unicode-aware case insensitivity matching is not available " ++
      "(make sure the unicode-case feature is enabled)"

structure Fault where
  cause : Cause
  span : Span
  /-- An earlier place that clashes with this one. -/
  earlier : Option Span := none
deriving DecidableEq, Repr

namespace Fault

/-- The lines of a text, without their ends. The end of the text is the end of its last line. -/
def linesFrom (line : List Char) : List Char → List (List Char)
  | [] => if line.isEmpty then [] else [line.reverse]
  | '\n' :: rest =>
    let whole := match line with
      | '\r' :: before => before
      | all => all
    whole.reverse :: linesFrom [] rest
  | c :: rest => linesFrom (c :: line) rest

def spans (f : Fault) : List Span :=
  match f.earlier with
  | none => [f.span]
  | some e => if f.span.atMost e then [f.span, e] else [e, f.span]

def spaces (n : Nat) : List Char := List.replicate n ' '

def caretsFrom (column : Nat) : List Span → List Char
  | [] => []
  | s :: rest =>
    let gap := s.first.column - 1 - column
    spaces gap ++ List.replicate s.carets '^' ++ caretsFrom (column + gap + s.carets) rest

/-- A line with its number, if lines are numbered, and the carets under it. -/
def notatedLine (width : Nat) (spans : List Span) (number : Nat) (line : List Char) : List Char :=
  let digits := number.repr.toList
  let head := if width = 0 then spaces 4 else spaces (width - digits.length) ++ digits ++ [':', ' ']
  let marked := spans.filter fun s ↦ s.isOneLine && s.first.line = number
  head ++ line ++ ['\n'] ++
    if marked.isEmpty then []
    else spaces (if width = 0 then 4 else width + 2) ++ caretsFrom 0 marked ++ ['\n']

def divider : String := String.ofList (List.replicate 79 '~') ++ "\n"

def extent (s : Span) : String :=
  "on line " ++ s.first.line.repr ++ " (column " ++ s.first.column.repr ++ ") through line " ++
    s.stop.line.repr ++ " (column " ++ (s.stop.column - 1).repr ++ ")"

def text (f : Fault) (pattern : String) : String :=
  let lines := linesFrom [] pattern.toList
  let count := lines.length + if pattern.endsWith "\n" then 1 else 0
  let width := if count ≤ 1 then 0 else count.repr.length
  let notated := String.ofList <|
    (lines.zipIdx 1).flatMap fun (line, number) ↦ notatedLine width f.spans number line
  let reason := "error: " ++ f.cause.message
  if pattern.toList.contains '\n' then
    let long := f.spans.filter fun s ↦ !s.isOneLine
    let notes := if long.isEmpty then "" else String.intercalate "\n" (long.map extent) ++ "\n"
    "regex parse error:\n" ++ divider ++ notated ++ divider ++ notes ++ reason
  else "regex parse error:\n" ++ notated ++ reason

end Fault

end Formula.Regex
