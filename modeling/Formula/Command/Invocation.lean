import Formula.Decimal.Literal
import Formula.Switches.Basic

/-!
# Command lines

A command line names a subcommand, `run`, `dump` or `funcs`, and gives it options. An option that
takes a value has it behind `=` or as the next argument; `--` ends the options. Giving an option
twice, a value that looks like an option, and anything unknown is refused. The one exception is a
negative number as the value of `--x` or `--y`.
-/

namespace Formula.Command

inductive Opt where
  | x
  | y
  | stats
  | output
  | config
deriving DecidableEq, Repr

inductive Flag where
  | trace
  | check
  | noRegisters
  | noCallDepth
  | noFold
deriving DecidableEq, Repr

inductive Switch where
  | opt (o : Opt)
  | flag (f : Flag)
deriving DecidableEq, Repr

inductive Subcommand where
  | run
  | dump
  | funcs
deriving DecidableEq, Repr

inductive Refusal where
  | help
  | usage
deriving DecidableEq, Repr

namespace Subcommand

def ofName? : String → Option Subcommand
  | "run" => some run
  | "dump" => some dump
  | "funcs" => some funcs
  | _ => none

def compileSwitches : List (String × Switch) :=
  [("config", .opt .config), ("no-registers", .flag .noRegisters),
    ("no-call-depth", .flag .noCallDepth), ("no-fold", .flag .noFold)]

def switches : Subcommand → List (String × Switch)
  | run => [("x", .opt .x), ("y", .opt .y), ("check", .flag .check), ("stats", .opt .stats),
      ("trace", .flag .trace)] ++ compileSwitches
  | dump => [("output", .opt .output), ("trace", .flag .trace)] ++ compileSwitches
  | funcs => [("trace", .flag .trace)]

def takesFormula : Subcommand → Bool
  | run | dump => true
  | funcs => false

end Subcommand

inductive StatsFormat where
  | human
  | json
deriving DecidableEq, Repr

def StatsFormat.ofName? : String → Option StatsFormat
  | "human" => some human
  | "json" => some json
  | _ => none

/-- A path is any text but the empty one. -/
def path? (text : String) : Option String := if text = "" then none else some text

structure Given where
  formula : Option String := none
  x : Option Double := none
  y : Option Double := none
  stats : Option StatsFormat := none
  output : Option String := none
  config : Option String := none
  flags : List Flag := []

/-- Fills a place that must still be empty, with a value that must be readable. -/
def once {α : Type} (old new : Option α) : Except Refusal (Option α) :=
  match old, new with
  | none, some v => .ok (some v)
  | _, _ => .error .usage

namespace Given

def addFormula (sub : Subcommand) (g : Given) (text : String) : Except Refusal Given :=
  if sub.takesFormula then do return { g with formula := ← once g.formula (some text) }
  else .error .usage

def addValue (g : Given) (o : Opt) (text : String) : Except Refusal Given := do
  match o with
  | .x => return { g with x := ← once g.x (Decimal.read? text) }
  | .y => return { g with y := ← once g.y (Decimal.read? text) }
  | .stats => return { g with stats := ← once g.stats (StatsFormat.ofName? text) }
  | .output => return { g with output := ← once g.output (path? text) }
  | .config => return { g with config := ← once g.config (path? text) }

def addFlag (g : Given) (f : Flag) : Except Refusal Given :=
  if g.flags.contains f then .error .usage else .ok { g with flags := f :: g.flags }

def has (g : Given) (f : Flag) : Bool := g.flags.contains f

end Given

/-- Digits with at most one point, not first, and at most one exponent mark behind it, neither first
nor last. -/
def isNumber (cs : List Char) : Bool :=
  let mantissa := cs.takeWhile fun c ↦ c ≠ 'e' ∧ c ≠ 'E'
  let digitsAndPoint := mantissa.all (fun c ↦ c.isDigit || c = '.') &&
    mantissa.count '.' ≤ 1 && mantissa.head? ≠ some '.'
  match cs.dropWhile fun c ↦ c ≠ 'e' ∧ c ≠ 'E' with
  | [] => digitsAndPoint
  | _ :: exponent =>
    digitsAndPoint && !mantissa.isEmpty && !exponent.isEmpty && exponent.all Char.isDigit

def canBeValue (o : Opt) (arg : String) : Bool :=
  match arg.toList with
  | '-' :: [] => true
  | '-' :: cs => (o = .x || o = .y) && isNumber cs
  | _ => true

def splitLong (cs : List Char) : String × Option String :=
  let name := String.ofList (cs.takeWhile (· ≠ '='))
  match cs.dropWhile (· ≠ '=') with
  | [] => (name, none)
  | _ :: value => (name, some (String.ofList value))

def attached : List Char → String
  | '=' :: value => String.ofList value
  | value => String.ofList value

def readArgs (sub : Subcommand) (g : Given) : List String → Except Refusal Given
  | [] => .ok g
  | "--" :: rest => rest.foldlM (Given.addFormula sub) g
  | arg :: rest =>
    match arg.toList with
    | '-' :: '-' :: long =>
      let (name, value?) := splitLong long
      match sub.switches.lookup name, value? with
      | some (.flag f), none => do readArgs sub (← g.addFlag f) rest
      | some (.flag _), some _ => .error .usage
      | some (.opt o), some value => do readArgs sub (← g.addValue o value) rest
      | some (.opt o), none =>
        match rest with
        | [] => .error .usage
        | value :: rest =>
          if canBeValue o value then do readArgs sub (← g.addValue o value) rest
          else .error .usage
      | none, none => .error (if name = "help" then .help else .usage)
      | none, some _ => .error .usage
    | '-' :: 'h' :: _ => .error .help
    | '-' :: 'o' :: short =>
      if sub ≠ .dump then .error .usage
      else
        match short, rest with
        | [], [] => .error .usage
        | [], value :: rest =>
          if canBeValue .output value then do readArgs sub (← g.addValue .output value) rest
          else .error .usage
        | short, rest => do readArgs sub (← g.addValue .output (attached short)) rest
    | '-' :: _ :: _ => .error .usage
    | _ => do readArgs sub (← g.addFormula sub arg) rest

structure CompileOptions where
  config : Option String
  noRegisters : Bool
  noCallDepth : Bool
  noFold : Bool
deriving DecidableEq, Repr

inductive Action where
  | run (formula : String) (x y : Double) (check : Bool) (stats : Option StatsFormat)
      (options : CompileOptions)
  | dump (formula : String) (output : Option String) (options : CompileOptions)
  | funcs

structure Invocation where
  trace : Bool
  action : Action

namespace Given

def compileOptions (g : Given) : CompileOptions :=
  ⟨g.config, g.has .noRegisters, g.has .noCallDepth, g.has .noFold⟩

/-- The action that the arguments make up; only a formula can be missing. Variables that are not
given are zero. -/
def action (g : Given) : Subcommand → Except Refusal Action
  | .run =>
    match g.formula with
    | none => .error .usage
    | some text => .ok (.run text (g.x.getD 0) (g.y.getD 0) (g.has .check) g.stats g.compileOptions)
  | .dump =>
    match g.formula with
    | none => .error .usage
    | some text => .ok (.dump text g.output g.compileOptions)
  | .funcs => .ok .funcs

end Given

/-- What `help` answers to: nothing more, or the name of a command. -/
def help (rest : List String) : Refusal :=
  match rest with
  | [] | ["help"] => .help
  | [name] => if (Subcommand.ofName? name).isSome then .help else .usage
  | _ => .usage

/-- Reads a whole command line. Only `--trace` can stand before the subcommand. -/
def Invocation.ofArgs (trace : Bool) : List String → Except Refusal Invocation
  | [] => .error .usage
  | "--trace" :: rest => if trace then .error .usage else ofArgs true rest
  | "--help" :: _ => .error .help
  | "help" :: rest => .error (Command.help rest)
  | name :: rest =>
    if name.startsWith "-h" then .error .help
    else
      match Subcommand.ofName? name with
      | none => .error .usage
      | some sub => do
        let g ← readArgs sub {} rest
        let action ← g.action sub
        return ⟨trace || g.has .trace, action⟩

end Formula.Command
