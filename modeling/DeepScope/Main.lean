import DeepScope.CommandLine

namespace DeepScope

/-- The system as a workspace, with the verbosity of its log. -/
abbrev OnDisk := ReaderT Nat IO

namespace OnDisk

/-- The number of a failure, whichever sign it comes with. -/
def number (code : UInt32) : UInt32 := min code (0 - code)

/-- The reason that the system gives for a failure. -/
def reason : IO.Error → IoError
  | .noFileOrDirectory .. => .notFound
  | .inappropriateType _ code _ => if number code = 20 then .notADirectory else .isADirectory
  | e => .other (toString e)

/-- Does something that can fail, and tells how it went. -/
def attempt {α : Type} (action : IO α) : OnDisk (Except IoError α) := do
  try return .ok (← action)
  catch e => return .error (reason e)

/-- Reads a file. -/
def read (path : String) : OnDisk (Except IoError Bytes) :=
  return (← attempt (IO.FS.readBinFile path)).map fun bytes => bytes.toList

/-- A file that is there counts as one even if it cannot be read, so that the
    failure to read it is reported. -/
def isFile (path : String) : OnDisk Bool := do
  match ← read path with
  | .ok _ | .error (.other _) => return true
  | .error _ => return false

/-- Writes a file. -/
def write (path : String) (bytes : Bytes) : OnDisk (Except IoError Unit) :=
  attempt (IO.FS.writeBinFile path (ByteArray.mk bytes.toArray))

/-- Shows an event, if it matters enough. -/
def log (event : Event) : OnDisk Unit := do
  if event.level.isShown (← ReaderT.read) then
    IO.eprintln (event.level.name ++ " " ++ event.message)

instance : Workspace OnDisk where
  isFile := isFile
  read := read
  write := write
  log := log

end OnDisk

/-- How the program is called. -/
def usage : String := "\n".intercalate [
  "usage: deepscope [OPTION]... FILE...",
  "",
  "Writes NAME.min.css, NAME_deep.css and NAME_deep.min.css for each NAME.css.",
  "",
  "  -v, --verbose         report more (-vv for everything)",
  "      --encoding LABEL  the encoding of files that do not name theirs",
  "      --no-header       do not write a comment at the top",
  "      --no-charset      do not write a @charset rule",
  "  -h, --help            show this text",
  "  -V, --version         show the version"]

/-- What is said before anything is done. -/
def Invocation.announce : Invocation → IO Unit
  | .transform _ => pure ()
  | .help => IO.println usage
  | .version => IO.println "deepscope 0.1.0"
  | .misuse => IO.eprintln usage

/-- How much is logged. -/
def Invocation.verbosity : Invocation → Nat
  | .transform arguments => arguments.verbosity
  | _ => 0

/-- Does what the program is called for, and gives its exit code. -/
def Invocation.perform (invocation : Invocation) : IO UInt32 := do
  invocation.announce
  let exit ← (invocation.execute (m := OnDisk)).run invocation.verbosity
  if let some failure := exit.failure then
    IO.eprintln failure
  return exit.code.toUInt32

end DeepScope

/-- Does what the arguments ask for. -/
def main (arguments : List String) : IO UInt32 :=
  (DeepScope.Invocation.ofArguments arguments).perform
