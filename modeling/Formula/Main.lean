import Formula.Command.Execute

/-!
# The program

Reads the configuration, does the work, writes the file.
-/

namespace Formula.Command

/-- Numbers of the operating system, which can come with a minus sign. -/
def systemError (text : String) (code : UInt32) : FileError :=
  FileError.ofCode text code.toInt32.toInt.natAbs

def fileError : IO.Error → FileError
  | .alreadyExists _ code text | .invalidArgument _ code text | .permissionDenied _ code text
  | .resourceExhausted _ code text | .inappropriateType _ code text | .noSuchThing _ code text
  | .noFileOrDirectory _ code text | .interrupted _ code text | .otherError code text
  | .resourceBusy code text | .resourceVanished code text | .unsupportedOperation code text
  | .hardwareFault code text | .unsatisfiedConstraints code text | .illegalOperation code text
  | .protocolError code text | .timeExpired code text => systemError text code
  | .unexpectedEof => .system "unexpected end of file" 0
  | .userError text => .system text 0

def readConfig (path : String) : IO (Except FileError String) := do
  try
    let bytes ← IO.FS.readBinFile path
    match String.fromUTF8? bytes with
    | some text => return .ok text
    | none => return .error .notUtf8
  catch e => return .error (fileError e)

def writeCode (path : String) (bytes : Array UInt8) : IO (Except FileError Unit) := do
  try
    IO.FS.writeBinFile path ⟨bytes⟩
    return .ok ()
  catch e => return .error (fileError e)

def perform (args : List String) : IO Output := do
  match Invocation.ofArgs false args with
  | .error r => return r.output
  | .ok i =>
    let logSpec ← IO.getEnv "RUST_LOG"
    let config ← i.configPath?.mapM readConfig
    let progress := i.perform .standard .standard logSpec config
    match progress with
    | .done o => return o
    | .writing path bytes .. => return progress.resume (← writeCode path bytes)

end Formula.Command

def main (args : List String) : IO UInt32 := do
  let o ← Formula.Command.perform args
  (← IO.getStdout).putStr o.stdout
  (← IO.getStderr).putStr o.stderr
  return UInt32.ofNat o.exit
