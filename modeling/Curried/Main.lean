import Curried.Cli.Invocation

/-!
# The program

Hands the words of the command line, the files and the lines of standard input
to the modules that decide, and writes out what they answer. Inside the program
the history file has a fixed name, whatever its path outside is.
-/

namespace Curried.Cli

def depthCode : UInt32 := 134

/-- The error that a system code stands for; the code may come with its sign changed. -/
def codeError? (code : UInt32) : Option FileError :=
  [(2, .missing), (6, .noDevice), (20, .notADirectory), (21, .isDirectory),
    (36, .nameTooLong)].findSome? fun (n, e) => if code = n || code = 0 - n then some e else none

def fileError (e : IO.Error) : FileError :=
  let code := match e with
    | .noFileOrDirectory _ code _ => code
    | .noSuchThing _ code _ => code
    | .inappropriateType _ code _ => code
    | .invalidArgument _ code _ => code
    | _ => 0
  (codeError? code).getD (.other (toString e))

def log (o : Options) (entries : List Trace.Entry) : IO Unit := do
  if o.verbose then
    for entry in entries.filter (Trace.Entry.isKept .debug) do
      IO.eprintln s!"DEBUG {entry.text}"

def reportFault (fault : Fault) : IO UInt32 := do
  IO.eprint fault.report
  return 1

def reportDepth : IO UInt32 := do
  IO.eprintln "calls are nested too deeply"
  return depthCode

def runSource (o : Options) (source : String) : IO UInt32 := do
  match Run.ofSource defaultDepth .empty source with
  | none => reportDepth
  | some run =>
    log o run.entries
    match sourceOutput run with
    | .ok output =>
      IO.print output
      return 0
    | .error fault => reportFault fault

def readSource (path : String) : IO (Except FileError String) := do
  try
    match String.fromUTF8? (← IO.FS.readBinFile path) with
    | some source => return .ok source
    | none => return .error .notText
  catch e => return .error (fileError e)

def historyName : String := "history"

/-- Reads a history file block by block, until it ends or the history is settled. -/
partial def readHistory (file : IO.FS.Handle) (before : ByteArray) : IO ByteArray := do
  let block ← file.read (.ofNat History.blockSize)
  let bytes := before ++ block
  if block.isEmpty || History.isSettled bytes then return bytes else readHistory file bytes

/-- The directory with the history file alone, if that can be read. -/
def loadHistory (path : Option String) : IO Directory := do
  match path with
  | none => return {}
  | some path =>
    try
      let file ← IO.FS.Handle.mk path .read
      return ({} : Directory).add historyName (← readHistory file .empty)
    catch _ => return {}

/-- Writes the history file out if it is not what it was before. -/
def saveHistory (path : Option String) (before after : Directory) : IO Unit := do
  match path, after.readText historyName, before.readText historyName with
  | some path, .ok text, old =>
    if old.toOption ≠ some text then
      try IO.FS.writeFile path text
      catch _ => return
  | _, _, _ => return

partial def nextBytes (stdin : IO.FS.Stream) (before : ByteArray) : IO ByteArray := do
  let bytes ← stdin.read 1
  let line := before ++ bytes
  if bytes.isEmpty || bytes.toList = [10] then return line else nextBytes stdin line

/-- The next line of standard input: nothing at its end, and an error if it is not text. -/
def nextLine (stdin : IO.FS.Stream) : IO (Except FileError (Option String)) := do
  let bytes ← nextBytes stdin .empty
  if bytes.isEmpty then return .ok none
  match String.fromUTF8? bytes with
  | some line => return .ok (some line)
  | none => return .error .notText

partial def interact (o : Options) (prompt : String) (stdin stdout : IO.FS.Stream)
    (s : Session) : IO UInt32 := do
  stdout.putStr prompt
  stdout.flush
  match ← nextLine stdin with
  | .error e => reportFault (.lineEditor e)
  | .ok none => return 0
  | .ok (some line) =>
    if Command.ofLine line = .leave then return 0
    match s.step defaultDepth (o.historyPath.map fun _ => historyName) line with
    | none => reportDepth
    | some (answer, next) =>
      saveHistory o.historyPath s.files next.files
      log o answer.entries
      stdout.putStr answer.output
      interact o prompt stdin stdout next

def runSession (o : Options) : IO UInt32 := do
  let stdin ← IO.getStdin
  let stdout ← IO.getStdout
  stdout.putStr Session.banner
  let files ← loadHistory o.historyPath
  let isDumb := (← IO.getEnv "TERM") = some "dumb"
  let prompt := if isDumb || (← stdin.isTty) then o.prompt else ""
  interact o prompt stdin stdout (.start files (o.historyPath.map fun _ => historyName))

end Curried.Cli

open Curried.Cli in
def main (words : List String) : IO UInt32 := do
  match Options.read words with
  | .error refusal =>
    IO.print refusal.output
    return refusal.code
  | .ok o =>
    match o.eval, o.file with
    | some source, _ => runSource o source
    | none, some path =>
      match ← readSource path with
      | .ok source => runSource o source
      | .error e => reportFault (.file e)
    | none, none => runSession o
