import Formula.Regex.Bracket
import Formula.Text.Letter
import Formula.Text.Numeral

/-!
# Patterns from text

`Ast.ofText` reads a pattern. Groups and alternations that are still open are kept on a stack, the
innermost first.
-/

namespace Formula.Regex

/-- What is read of a sequence, the last part first. -/
structure Sequence where
  first : Position
  parts : List Ast

namespace Sequence

def none (p : Position) : Sequence := ⟨p, []⟩

def push (s : Sequence) (a : Ast) : Sequence := { s with parts := a :: s.parts }

def toAst (s : Sequence) (stop : Position) : Ast :=
  match s.parts with
  | [] => .empty ⟨s.first, stop⟩
  | [a] => a
  | parts => .concat ⟨s.first, stop⟩ parts.reverse

end Sequence

inductive Frame where
  /-- An open group, with what stands before it and whether blanks were skipped there. -/
  | group (before : Sequence) (span : Span) (flags : Option (List FlagItem)) (free : Bool)
  /-- The branches before the present one, the last first. -/
  | branches (first : Position) (branches : List Ast)

structure ParseState where
  cursor : Cursor
  sequence : Sequence
  frames : List Frame
  names : List (List Char × Span)

namespace ParseState

/-! ### Groups -/

def isNameStart (c : Char) : Bool := c = '_' || Text.isLetter c

def isNamePart (c : Char) : Bool :=
  c = '_' || c = '.' || c = '[' || c = ']' || Text.isLetter c || Text.isNumeral c

def nameFrom (start : Position) (c : Cursor) : Except Fault (List Char × Cursor) :=
  match _h : c.rest with
  | [] => .error { cause := .nameUnfinished, span := c.here }
  | ch :: _ =>
    if ch = '>' then .ok ([], c)
    else if if c.position = start then isNameStart ch else isNamePart ch then do
      let (name, behind) ← nameFrom start c.next
      return (ch :: name, behind)
    else .error { cause := .nameInvalid, span := c.char }
termination_by c.rest.length
decreasing_by exact Cursor.length_next_lt (by simp_all)

def flagsFrom (seen : List (FlagItem × Span)) (c : Cursor) :
    Except Fault (List (FlagItem × Span) × Cursor) := do
  match _h : c.rest with
  | [] => .error { cause := .flagsUnfinished, span := c.here }
  | ch :: _ =>
    if ch = ':' || ch = ')' then
      match seen with
      | (.negation, span) :: _ => .error { cause := .flagNegationDangling, span := span }
      | _ => return (seen.reverse, c)
    else if ch = '-' then
      match seen.find? (·.1 = .negation) with
      | some (_, span) =>
        .error { cause := .flagNegationRepeated, span := c.char, earlier := some span }
      | none => flagsFrom ((.negation, c.char) :: seen) c.next
    else
      match Flag.ofLetter? ch with
      | none => .error { cause := .flagUnrecognized, span := c.char }
      | some f =>
        match seen.find? (·.1 = .flag f) with
        | some (_, span) => .error { cause := .flagDuplicate, span := c.char, earlier := some span }
        | none => flagsFrom ((.flag f, c.char) :: seen) c.next
termination_by c.rest.length
decreasing_by all_goals exact Cursor.length_next_lt (by simp_all)

def entered (s : ParseState) (span : Span) (flags : Option (List FlagItem)) (c : Cursor) :
    ParseState :=
  let free := ((flags.getD []) |> flagState? false .free).getD c.free
  { s with
    cursor := { c with free := free }
    sequence := .none c.position
    frames := .group s.sequence span flags c.free :: s.frames }

def named (s : ParseState) (span : Span) (c : Cursor) : Except Fault ParseState := do
  let (name, behind) ← nameFrom c.position c
  let nameSpan := behind.since c.position
  if name.isEmpty then .error { cause := .nameEmpty, span := .point c.position }
  else
    match s.names.find? (·.1 = name) with
    | some (_, earlier) =>
      .error { cause := .nameDuplicate, span := nameSpan, earlier := some earlier }
    | none => return { s with names := (name, nameSpan) :: s.names }.entered span none behind.next

/-- Opens a group, or takes flags that hold from here on. -/
def openGroup (s : ParseState) : Except Fault ParseState := do
  let span := s.cursor.char
  let c := s.cursor.advance
  let lookArounds := [['?', '='], ['?', '!'], ['?', '<', '='], ['?', '<', '!']]
  if let some behind := lookArounds.findSome? c.dropText? then
    .error { cause := .lookAround, span := behind.since span.first }
  else if let some behind := (c.dropText? ['?', 'P', '<']).or (c.dropText? ['?', '<']) then
    s.named span behind
  else if let some inner := c.dropText? ['?'] then
    if inner.atEnd then .error { cause := .groupUnclosed, span := span }
    else
      let (found, behind) ← flagsFrom [] inner
      let items := found.map (·.1)
      let after := behind.next
      if behind.rest.head? = some ')' then
        if items.isEmpty then .error { cause := .repetitionMissing, span := c.here }
        else
          let free := (flagState? false .free items).getD c.free
          return { s with
            cursor := { after with free := free }
            sequence := s.sequence.push (.flags (after.since span.first) items) }
      else return s.entered span (some items) after
  else return s.entered span none c

def branch (s : ParseState) : ParseState :=
  let stop := s.cursor.position
  let done := s.sequence.toAst stop
  let c := s.cursor.next
  let frames := match s.frames with
    | .branches first others :: rest => .branches first (done :: others) :: rest
    | frames => .branches s.sequence.first [done] :: frames
  { s with cursor := c, sequence := .none c.position, frames := frames }

def closeGroup (s : ParseState) : Except Fault ParseState :=
  let stop := s.cursor.position
  let done := s.sequence.toAst stop
  let (inner, frames) := match s.frames with
    | .branches first others :: rest =>
      (Ast.alternation ⟨first, stop⟩ (done :: others).reverse, rest)
    | frames => (done, frames)
  match frames with
  | .group before span flags free :: rest =>
    let c := s.cursor.next
    .ok { s with
      cursor := { c with free := free }
      sequence := before.push (.group (c.since span.first) flags inner)
      frames := rest }
  | _ => .error { cause := .groupUnopened, span := s.cursor.char }

/-! ### Repetition -/

def repeated (s : ParseState) : Except Fault (Ast × Sequence) :=
  let missing : Except Fault (Ast × Sequence) :=
    .error { cause := .repetitionMissing, span := s.cursor.here }
  match s.sequence.parts with
  | [] => missing
  | .empty _ :: _ => missing
  | .flags _ _ :: _ => missing
  | a :: before => .ok (a, { s.sequence with parts := before })

/-- Takes a repetition that ends at the cursor. A question mark there asks for few repetitions
first, which says nothing about whether a text matches. -/
def counted (s : ParseState) (count : Count) (a : Ast) (before : Sequence) (c : Cursor) :
    ParseState :=
  let c := if c.rest.head? = some '?' then c.next else c
  { s with
    cursor := c
    sequence := before.push (.repetition ⟨a.span.first, c.position⟩ count a) }

/-- A number of a count. Blanks may stand around it. -/
def decimal (c : Cursor) : Except Fault Nat × Cursor :=
  let c := c.skipBlanks
  let (digits, behind) := c.span Char.isDigit
  let span := behind.since c.position
  let (_, after) := behind.span Text.isBlank
  let n := digits.foldl (fun n d ↦ 10 * n + (d.toNat - 0x30)) 0
  if digits.isEmpty then (.error { cause := .countEmpty, span := span }, after)
  else if n < 0x100000000 then (.ok n, after)
  else (.error { cause := .decimalInvalid, span := span }, after)

def countedGroup (s : ParseState) : Except Fault ParseState := do
  let (a, before) ← s.repeated
  let start := s.cursor.position
  let unclosed (c : Cursor) : Except Fault ParseState :=
    .error { cause := .countUnclosed, span := c.since start }
  let finish (count : Count) (c : Cursor) : Except Fault ParseState :=
    if c.rest.head? = some '\x7d' then
      let done := s.counted count a before c.advance
      if count.most.all (count.least ≤ ·) then .ok done
      else .error { cause := .countInvalid, span := done.cursor.since start }
    else unclosed c
  let c := s.cursor.advance
  if c.atEnd then unclosed c
  else
    let (least, c) := decimal c
    match c.rest with
    | [] => unclosed c
    | ',' :: _ =>
      let c := c.advance
      match c.rest with
      | [] => unclosed c
      | '\x7d' :: _ => finish ⟨← least, none⟩ c
      | _ =>
        let least ← least
        let (most, c) := decimal c
        finish ⟨least, some (← most)⟩ c
    | _ =>
      let n ← least
      finish ⟨n, some n⟩ c

/-! ### Whole patterns -/

def step (s : ParseState) : Except Fault ParseState := do
  let repeatAs (count : Count) : Except Fault ParseState := do
    let (a, before) ← s.repeated
    return s.counted count a before s.cursor.next
  match s.cursor.rest with
  | '(' :: _ => s.openGroup
  | ')' :: _ => s.closeGroup
  | '|' :: _ => return s.branch
  | '[' :: _ =>
    let (class_, c) ← bracketed s.cursor
    return { s with cursor := c, sequence := s.sequence.push class_ }
  | '?' :: _ => repeatAs ⟨0, some 1⟩
  | '*' :: _ => repeatAs ⟨0, none⟩
  | '+' :: _ => repeatAs ⟨1, none⟩
  | '\x7b' :: _ => s.countedGroup
  | _ =>
    let (p, c) ← primitive s.cursor
    return { s with cursor := c, sequence := s.sequence.push p.toAst }

def finish (s : ParseState) : Except Fault Ast :=
  let stop := s.cursor.position
  let done := s.sequence.toAst stop
  let (whole, frames) := match s.frames with
    | .branches first others :: rest =>
      (Ast.alternation ⟨first, stop⟩ (done :: others).reverse, rest)
    | frames => (done, frames)
  match frames with
  | .group _ span _ _ :: _ => .error { cause := .groupUnclosed, span := span }
  | _ => .ok whole

def run : Nat → ParseState → Except Fault Ast
  | 0, s => s.finish
  | n + 1, s =>
    let s := { s with cursor := s.cursor.skip }
    if s.cursor.atEnd then s.finish
    else do run n (← s.step)

end ParseState

def nestLimit : Nat := 250

/-- The tree of a pattern. Every step reads at least one character. -/
def Ast.ofText (pattern : String) : Except Fault Ast := do
  let c := Cursor.ofText pattern
  let a ← ParseState.run (c.rest.length + 1) ⟨c, .none c.position, [], []⟩
  match a.tooDeep? nestLimit with
  | some span => .error { cause := .nestedTooDeep nestLimit, span := span }
  | none => return a

end Formula.Regex
