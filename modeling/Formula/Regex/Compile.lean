import Formula.Regex.Meaning
import Formula.Regex.Size

/-!
# Regular expressions from text

`Regex.ofText` accepts the patterns that are written correctly, ask for nothing that needs tables of
characters, and stay within the size limit.
-/

namespace Formula.Regex

mutual

/-- Whether a condition on words of every script occurs, which needs a table of their characters. -/
def needsWordTable : Regex → Bool
  | .look (.word unicode _) => unicode
  | .group sub => needsWordTable sub
  | .repetition _ _ sub => needsWordTable sub
  | .cat parts => anyNeedsWordTable parts
  | .alt branches => anyNeedsWordTable branches
  | _ => false

def anyNeedsWordTable : List Regex → Bool
  | [] => false
  | r :: rest => needsWordTable r || anyNeedsWordTable rest

end

inductive Refusal where
  | fault (f : Fault)
  | needsWordTable
  | tooLarge
deriving DecidableEq, Repr

def Refusal.text (pattern : String) : Refusal → String
  | fault f => f.text pattern
  | needsWordTable => "error building NFA"
  | tooLarge => "Compiled regex exceeds size limit of " ++ sizeLimit.repr ++ " bytes."

def ofText (pattern : String) : Except Refusal Regex :=
  match Ast.ofText pattern with
  | .error f => .error (.fault f)
  | .ok a =>
    match a.meaning {} with
    | .error f => .error (.fault f)
    | .ok (r, _) =>
      if r.isTooLarge .forwards then .error .tooLarge
      else if r.needsWordTable then .error .needsWordTable
      else if r.isTooLarge .backwards then .error .tooLarge
      else .ok r

end Formula.Regex
