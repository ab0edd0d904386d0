import Formula.Command.Invocation
import Formula.Directory
import Formula.Log.Filter
import Formula.Routine
import Formula.Switches.Toml

/-!
# What commands do

`Invocation.perform` does all of a command's work that needs no files: given the functions, a host
to run routines on and the text of the configuration, if one was asked for, it either is done or has
a file to write. `execute` runs a command line in a directory.
-/

namespace Formula.Command

inductive Failure where
  | file (e : FileError)
  | config
  | compile (e : CompileError)
  | unknownFunction (e : UnknownFunction)
  /-- The routine does not come to a return. -/
  | fault
  | mismatch (routine interpreter : Double)

def Failure.message : Failure → String
  | file e => e.message
  | config =>
    "invalid configuration: failed to parse config: a line sets one switch to true or false, " ++
      "and each switch is set at most once"
  | compile e => e.message
  | unknownFunction e => e.message
  | fault => "illegal instruction"
  | mismatch routine interpreter =>
    "check failed: jit returned " ++ Decimal.plain.write routine ++ " but interpreter returned " ++
      Decimal.plain.write interpreter

structure Output where
  exit : Nat
  stdout : String
  stderr : String
deriving DecidableEq, Repr

/-- Numbers in reports: without exponent from five places behind the point up to sixteen digits
before it, and null if there is no finite number. -/
def reportNumber : Decimal.Layout where
  tie := .toEven
  positional := fun e ↦ -5 ≤ e && e ≤ 15
  wholeEnd := ".0"
  nan := "null"
  infinity := "null"
  negInfinity := "null"

def jsonReport (result : Double) (r : Routine) : String :=
  let number := reportNumber.write result
  let size := r.codeSize
  let hits := r.stats.registersHit
  let spills := r.stats.stackSpills
  let top := r.stats.maxReg
  s!"\x7b\"result\":{number},\"code_size\":{size},\"stats\":\x7b\"registers_hit\":{hits}," ++
    s!"\"stack_spills\":{spills},\"max_reg\":{top}\x7d\x7d\n"

def humanStats (r : Routine) : String :=
  let size := r.codeSize
  let hits := r.stats.registersHit
  let spills := r.stats.stackSpills
  let top := r.stats.maxReg
  s!"code size:      {size} bytes\nregister hits:  {hits}\nstack spills:   {spills}\n" ++
    s!"highest xmm:    {top}\n"

def hexByte (b : UInt8) : String :=
  String.ofList [Nat.digitChar (b.toNat / 16), Nat.digitChar (b.toNat % 16)]

def CompileOptions.apply (o : CompileOptions) (s : Switches) : Switches where
  useRegisters := s.useRegisters && !o.noRegisters
  useCallDepth := s.useCallDepth && !o.noCallDepth
  useConstFolding := s.useConstFolding && !o.noFold

def CompileOptions.switches (o : CompileOptions) (config : Option (Except FileError String)) :
    Except Failure Switches :=
  match config with
  | none => .ok (o.apply {})
  | some (.error e) => .error (.file e)
  | some (.ok text) =>
    match Switches.ofToml? text with
    | none => .error .config
    | some s => .ok (o.apply s)

def Invocation.configPath? (i : Invocation) : Option String :=
  match i.action with
  | .run _ _ _ _ _ o | .dump _ _ o => o.config
  | .funcs => none

structure Work where
  stdout : String := ""
  stderr : String := ""
  file : Option (String × Array UInt8) := none

/-- Whether the interpreter gets the same double. -/
def checked (t : FunctionTable) (formula : String) (x y result : Double) : Except Failure Unit :=
  match Expr.parse formula with
  | .error e => .error (.compile (.read e))
  | .ok e =>
    match e.toGraph.evaluate t x y with
    | .error e => .error (.unknownFunction e)
    | .ok v => if result.agrees v then .ok () else .error (.mismatch result v)

def runWork (t : FunctionTable) (host : Host) (formula : String) (x y : Double) (check : Bool)
    (stats : Option StatsFormat) (r : Routine) : Except Failure Work :=
  match r.evalOn host x y with
  | .error _ => .error .fault
  | .ok result => do
    if check then checked t formula x y result
    let line := Decimal.plain.write result ++ "\n"
    match stats with
    | none => return { stdout := line }
    | some .human => return { stdout := line, stderr := humanStats r }
    | some .json => return { stdout := jsonReport result r }

def dumpWork (output : Option String) (r : Routine) : Work :=
  match output with
  | none => { stdout := String.intercalate " " (r.code.toList.map hexByte) ++ "\n" }
  | some path => { file := some (path, r.code) }

/-- Compiles, and goes on with the routine. The records come out in either case. -/
def withRoutine (t : FunctionTable) (formula : String) (options : CompileOptions)
    (config : Option (Except FileError String)) (use : Routine → Except Failure Work) :
    Except Failure Work × Array Log.Record :=
  match options.switches config with
  | .error e => (.error e, #[])
  | .ok s =>
    let (result, log) := compile formula t s
    match result with
    | .error e => (.error (.compile e), log)
    | .ok r => (use r, log)

def Action.work (t : FunctionTable) (host : Host) (config : Option (Except FileError String)) :
    Action → Except Failure Work × Array Log.Record
  | .run formula x y check stats options =>
    withRoutine t formula options config (runWork t host formula x y check stats)
  | .dump formula output options =>
    withRoutine t formula options config fun r ↦ .ok (dumpWork output r)
  | .funcs =>
    (.ok { stdout := String.join (t.names.map (· ++ "\n")) }, #[])

/-- A command that is done, or one that has a file to write first. -/
inductive Progress where
  | done (o : Output)
  | writing (path : String) (bytes : Array UInt8) (stdout stderr : String)

def failed (stderr : String) (f : Failure) : Output :=
  ⟨1, "", stderr ++ "error: " ++ f.message ++ "\n"⟩

def Progress.resume (result : Except FileError Unit) : Progress → Output
  | done o => o
  | writing path bytes stdout stderr =>
    match result with
    | .error e => failed stderr (.file e)
    | .ok () =>
      let size := bytes.size
      ⟨0, stdout, stderr ++ s!"wrote {size} bytes to {path}\n"⟩

/-- All of a command's work but its files. `logSpec` is the filter that the user asks for by other
means, which comes before `--trace`. -/
def Invocation.perform (i : Invocation) (t : FunctionTable) (host : Host) (logSpec : Option String)
    (config : Option (Except FileError String)) : Progress :=
  let (filter, complaints) := Log.Filter.ofText (logSpec.getD (if i.trace then "debug" else "warn"))
  let (result, log) := i.action.work t host config
  let shown := (log.filter filter.shows).toList.map fun r ↦ r.line ++ "\n"
  let warnings := complaints.map fun c ↦ "warning: " ++ c ++ ", ignoring it\n"
  let stderr := String.join (warnings ++ shown)
  match result with
  | .error f => .done (failed stderr f)
  | .ok w =>
    match w.file with
    | none => .done ⟨0, w.stdout, stderr ++ w.stderr⟩
    | some (path, bytes) => .writing path bytes w.stdout (stderr ++ w.stderr)

def synopsis : String :=
  "usage: formula [--trace] run FORMULA [--x N] [--y N] [--check] [--stats human|json]\n" ++
    "                             [COMPILE]\n" ++
    "       formula [--trace] dump FORMULA [-o FILE] [COMPILE]\n" ++
    "       formula [--trace] funcs\n" ++
    "COMPILE: [--config FILE] [--no-registers] [--no-call-depth] [--no-fold]\n"

def Refusal.output : Refusal → Output
  | help => ⟨0, synopsis, ""⟩
  | usage => ⟨2, "", synopsis⟩

def execute (args : List String) (logSpec : Option String) (d : Directory) : Output × Directory :=
  match Invocation.ofArgs false args with
  | .error r => (r.output, d)
  | .ok i =>
    match i.perform .standard .standard logSpec (i.configPath?.map d.readText) with
    | .done o => (o, d)
    | .writing path bytes stdout stderr =>
      let p : Progress := .writing path bytes stdout stderr
      match d.write path ⟨bytes⟩ with
      | .error e => (p.resume (.error e), d)
      | .ok d => (p.resume (.ok ()), d)

end Formula.Command
