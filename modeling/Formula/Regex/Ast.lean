import Formula.Regex.Span

/-!
# Written patterns

The tree of a pattern as it is written, with the span of each part.
-/

namespace Formula.Regex

structure Literal where
  span : Span
  char : Char
  /-- Whether it is written as two hexadecimal digits, which may stand for a byte. -/
  isByte : Bool := false
deriving DecidableEq, Repr

inductive WordClass where
  | digit
  | space
  | word
deriving DecidableEq, Repr

structure WordClassItem where
  span : Span
  kind : WordClass
  negated : Bool
deriving DecidableEq, Repr

structure PropertyItem where
  span : Span
  name : String
  hasValue : Bool
  negated : Bool
deriving DecidableEq, Repr

inductive AsciiClass where
  | alnum | alpha | ascii | blank | cntrl | digit | graph | lower | print | punct | space | upper
  | word | xdigit
deriving DecidableEq, Repr

namespace AsciiClass

def ofName? : String → Option AsciiClass
  | "alnum" => some alnum
  | "alpha" => some alpha
  | "ascii" => some ascii
  | "blank" => some blank
  | "cntrl" => some cntrl
  | "digit" => some digit
  | "graph" => some graph
  | "lower" => some lower
  | "print" => some print
  | "punct" => some punct
  | "space" => some space
  | "upper" => some upper
  | "word" => some word
  | "xdigit" => some xdigit
  | _ => none

def ranges : AsciiClass → List (Nat × Nat)
  | alnum => [(0x30, 0x39), (0x41, 0x5a), (0x61, 0x7a)]
  | alpha => [(0x41, 0x5a), (0x61, 0x7a)]
  | ascii => [(0x00, 0x7f)]
  | blank => [(0x09, 0x09), (0x20, 0x20)]
  | cntrl => [(0x00, 0x1f), (0x7f, 0x7f)]
  | digit => [(0x30, 0x39)]
  | graph => [(0x21, 0x7e)]
  | lower => [(0x61, 0x7a)]
  | print => [(0x20, 0x7e)]
  | punct => [(0x21, 0x2f), (0x3a, 0x40), (0x5b, 0x60), (0x7b, 0x7e)]
  | space => [(0x09, 0x0d), (0x20, 0x20)]
  | upper => [(0x41, 0x5a)]
  | word => [(0x30, 0x39), (0x41, 0x5a), (0x5f, 0x5f), (0x61, 0x7a)]
  | xdigit => [(0x30, 0x39), (0x41, 0x46), (0x61, 0x66)]

end AsciiClass

inductive SetOp where
  | intersection
  | difference
  | symmetricDifference
deriving DecidableEq, Repr

inductive ClassItem where
  | empty (span : Span)
  | literal (l : Literal)
  | range (span : Span) (lo hi : Literal)
  | ascii (span : Span) (kind : AsciiClass) (negated : Bool)
  | property (item : PropertyItem)
  | wordClass (item : WordClassItem)
  | bracketed (span : Span) (negated : Bool) (set : ClassItem)
  | union (span : Span) (items : List ClassItem)
  | op (span : Span) (kind : SetOp) (lhs rhs : ClassItem)
deriving Repr

def ClassItem.span : ClassItem → Span
  | empty s | range s _ _ | ascii s _ _ | bracketed s _ _ | union s _ | op s _ _ _ => s
  | literal l => l.span
  | property i => i.span
  | wordClass i => i.span

inductive Assertion where
  | startLine
  | endLine
  | startText
  | endText
  | boundary
  | notBoundary
  | wordStart
  | wordEnd
  | wordStartHalf
  | wordEndHalf
deriving DecidableEq, Repr

inductive Flag where
  | ignoreCase
  | multiLine
  | dotNewline
  | swapGreed
  | unicode
  | crlf
  | free
deriving DecidableEq, Repr

def Flag.ofLetter? : Char → Option Flag
  | 'i' => some ignoreCase
  | 'm' => some multiLine
  | 's' => some dotNewline
  | 'U' => some swapGreed
  | 'u' => some unicode
  | 'R' => some crlf
  | 'x' => some free
  | _ => none

/-- A written flag, or the sign that negates those after it. -/
inductive FlagItem where
  | flag (f : Flag)
  | negation
deriving DecidableEq, Repr

def flagState? (negated : Bool) (f : Flag) : List FlagItem → Option Bool
  | [] => none
  | .negation :: rest => flagState? true f rest
  | .flag g :: rest => if g = f then some !negated else flagState? negated f rest

structure Count where
  least : Nat
  most : Option Nat
deriving DecidableEq, Repr

inductive Ast where
  | empty (span : Span)
  | flags (span : Span) (items : List FlagItem)
  | literal (l : Literal)
  | dot (span : Span)
  | assertion (span : Span) (kind : Assertion)
  | property (item : PropertyItem)
  | wordClass (item : WordClassItem)
  | bracketed (span : Span) (negated : Bool) (set : ClassItem)
  | repetition (span : Span) (count : Count) (sub : Ast)
  /-- A group; one without flags captures what it matches. -/
  | group (span : Span) (flags : Option (List FlagItem)) (sub : Ast)
  | alternation (span : Span) (branches : List Ast)
  | concat (span : Span) (parts : List Ast)
deriving Repr

def Ast.span : Ast → Span
  | empty s | flags s _ | dot s | assertion s _ | bracketed s _ _ | repetition s _ _ | group s _ _
  | alternation s _ | concat s _ => s
  | literal l => l.span
  | property i => i.span
  | wordClass i => i.span

/-! ### Nesting -/

mutual

def ClassItem.tooDeep? (room : Nat) : ClassItem → Option Span
  | .bracketed s _ set => match room with
    | 0 => some s
    | n + 1 => set.tooDeep? n
  | .union s items => match room with
    | 0 => some s
    | n + 1 => ClassItem.anyTooDeep? n items
  | .op s _ lhs rhs => match room with
    | 0 => some s
    | n + 1 => (lhs.tooDeep? n).or (rhs.tooDeep? n)
  | _ => none

def ClassItem.anyTooDeep? (room : Nat) : List ClassItem → Option Span
  | [] => none
  | i :: items => (i.tooDeep? room).or (ClassItem.anyTooDeep? room items)

end

mutual

def Ast.tooDeep? (room : Nat) : Ast → Option Span
  | .bracketed s _ set => match room with
    | 0 => some s
    | n + 1 => set.tooDeep? n
  | .repetition s _ sub => match room with
    | 0 => some s
    | n + 1 => sub.tooDeep? n
  | .group s _ sub => match room with
    | 0 => some s
    | n + 1 => sub.tooDeep? n
  | .alternation s branches => match room with
    | 0 => some s
    | n + 1 => Ast.anyTooDeep? n branches
  | .concat s parts => match room with
    | 0 => some s
    | n + 1 => Ast.anyTooDeep? n parts
  | _ => none

def Ast.anyTooDeep? (room : Nat) : List Ast → Option Span
  | [] => none
  | a :: rest => (a.tooDeep? room).or (Ast.anyTooDeep? room rest)

end

end Formula.Regex
