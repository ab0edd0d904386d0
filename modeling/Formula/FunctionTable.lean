import Formula.Double
import Formula.Text.Quoted

/-!
# Named functions

A native function is known by the address of its code and by what it computes. A `FunctionTable`
gives names to native functions; it lists them in increasing order of names.
-/

namespace Formula

structure Native where
  address : UInt64
  apply : Double → Double

/-- Names and their functions, in increasing order of names. -/
structure FunctionTable where
  entries : List (String × Native)

namespace FunctionTable

def empty : FunctionTable := ⟨[]⟩

def insert (name : String) (f : Native) : List (String × Native) → List (String × Native)
  | [] => [(name, f)]
  | (other, g) :: rest =>
    if name = other then (name, f) :: rest
    else if name < other then (name, f) :: (other, g) :: rest
    else (other, g) :: insert name f rest

/-- Gives a name to a function; the name's old function, if any, is forgotten. -/
def register (t : FunctionTable) (name : String) (f : Native) : FunctionTable :=
  ⟨insert name f t.entries⟩

def lookup (name : String) : List (String × Native) → Option Native
  | [] => none
  | (other, f) :: rest => if name = other then some f else lookup name rest

def get? (t : FunctionTable) (name : String) : Option Native := lookup name t.entries

def address? (t : FunctionTable) (name : String) : Option UInt64 := (t.get? name).map Native.address

def contains (t : FunctionTable) (name : String) : Bool := (t.get? name).isSome

def names (t : FunctionTable) : List String := t.entries.map Prod.fst

def size (t : FunctionTable) : Nat := t.entries.length

def describe (t : FunctionTable) : String :=
  "\x7b" ++ String.intercalate ", " (t.names.map Text.quote) ++ "\x7d"

theorem lookup_insert (name other : String) (f : Native) (es : List (String × Native)) :
    lookup other (insert name f es) = if other = name then some f else lookup other es := by
  induction es with
  | nil => rfl
  | cons e rest ih =>
    simp only [insert]
    split
    · next hk => simp only [lookup]; grind
    · split
      · simp [lookup]
      · simp only [lookup, ih]; grind

theorem get?_register (t : FunctionTable) (name other : String) (f : Native) :
    (t.register name f).get? other = if other = name then some f else t.get? other :=
  lookup_insert name other f t.entries

/-- The functions that are there from the start, with their entry points numbered from one. -/
def builtins : List (String × (Double → Double)) := [
  ("sin", .map .sin), ("cos", .map .cos), ("tan", .map .tan),
  ("asin", .map .asin), ("acos", .map .acos), ("atan", .map .atan),
  ("sinh", .map .sinh), ("cosh", .map .cosh), ("tanh", .map .tanh),
  ("sqrt", .map .sqrt), ("exp", .map .exp), ("ln", .map .log),
  ("log2", .map .log2), ("log10", .map .log10), ("abs", .abs),
  ("floor", .map .floor), ("ceil", .map .ceil), ("round", .map .round)]

def builtinNatives : List (String × Native) :=
  builtins.zipIdx.map fun ((name, f), i) ↦ (name, ⟨UInt64.ofNat (i + 1), f⟩)

def standard : FunctionTable :=
  builtinNatives.foldl (fun t (name, f) ↦ t.register name f) empty

end FunctionTable

end Formula
