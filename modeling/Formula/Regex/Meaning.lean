import Formula.Regex.Basic
import Formula.Regex.ClassSet
import Formula.Regex.Parser

/-!
# What a written pattern means

`Ast.meaning` gives the regular expression of a tree. Flags that stand alone hold up to the end of
the group that they stand in.
-/

namespace Formula.Regex

mutual

def isZeroWidth : Regex → Bool
  | .empty => true
  | .look _ => true
  | .oneOf _ => false
  | .group sub => isZeroWidth sub
  | .repetition _ most sub => most.isSome && isZeroWidth sub
  | .cat parts => areZeroWidth parts
  | .alt branches => areZeroWidth branches

def areZeroWidth : List Regex → Bool
  | [] => true
  | r :: rest => isZeroWidth r && areZeroWidth rest

end

/-- A repetition. One of something without width is done at most once; one that is done exactly once
or never is none. -/
def repeated (count : Count) (sub : Regex) : Regex :=
  let least := if sub.isZeroWidth then min count.least 1 else count.least
  let most := if sub.isZeroWidth then some (min (count.most.getD 1) 1) else count.most
  if most = some 0 then .empty
  else if least = 1 ∧ most = some 1 then sub
  else .repetition least most sub

namespace Flags

def assertion (f : Flags) (kind : Assertion) : Look :=
  let line (plain any text : Look) : Look :=
    if !f.multiLine then text else if f.crlf then any else plain
  match kind with
  | .startLine => line .startLine .startAnyLine .startText
  | .endLine => line .endLine .endAnyLine .endText
  | .startText => .startText
  | .endText => .endText
  | .boundary => .word f.unicode .boundary
  | .notBoundary => .word f.unicode .notBoundary
  | .wordStart => .word f.unicode .start
  | .wordEnd => .word f.unicode .stop
  | .wordStartHalf => .word f.unicode .startHalf
  | .wordEndHalf => .word f.unicode .stopHalf

/-- The set of a dot: every character, or every one that ends no line. -/
def dot (f : Flags) (span : Span) : Except Fault Regex :=
  if !f.unicode then .error { cause := .invalidUtf8, span := span }
  else
    let lineEnds : Ranges :=
      if f.dotNewline then [] else if f.crlf then [(0xa, 0xa), (0xd, 0xd)] else [(0xa, 0xa)]
    .ok (.oneOf (lineEnds.complement f.top))

def literal (f : Flags) (l : Literal) : Except Fault Regex := do
  let n ← f.literalNumber l
  if f.ignoreCase && f.unicode then .error { cause := .caseUnavailable, span := l.span }
  else if f.ignoreCase then return .oneOf (ClassSet.foldAscii ⟨[(n, n)], false⟩).ranges
  else return .oneOf [(n, n)]

end Flags

mutual

def Ast.meaning (f : Flags) : Ast → Except Fault (Regex × Flags)
  | .empty _ => .ok (.empty, f)
  | .flags _ items => .ok (.empty, f.set items)
  | .literal l => do return (← f.literal l, f)
  | .dot span => do return (← f.dot span, f)
  | .assertion _ kind => .ok (.look (f.assertion kind), f)
  | .property i => do return (.oneOf (← f.property i).ranges, f)
  | .wordClass i => do return (.oneOf (← f.wordClass i).ranges, f)
  | .bracketed span negated inner => do
    return (.oneOf (← f.finish span negated (← f.extended .empty inner)).ranges, f)
  | .repetition _ count sub => do
    let (r, f) ← sub.meaning f
    return (repeated count r, f)
  | .group _ written sub => do
    match written with
    | none =>
      let (r, _) ← sub.meaning f
      return (.group r, f)
    | some items =>
      let (r, _) ← sub.meaning (f.set items)
      return (r, f)
  | .alternation _ branches => do
    let (rs, f) ← Ast.meanings f branches
    return (.alt rs, f)
  | .concat _ parts => do
    let (rs, f) ← Ast.meanings f parts
    return (.cat rs, f)

def Ast.meanings (f : Flags) : List Ast → Except Fault (List Regex × Flags)
  | [] => .ok ([], f)
  | a :: rest => do
    let (r, f) ← a.meaning f
    let (rs, f) ← Ast.meanings f rest
    return (r :: rs, f)

end

end Formula.Regex
