import Curried.Cli.Options
import Curried.Cli.Session

/-!
# Invocations of the program

An invocation is the words of the command line and the directory it is made in,
with the bytes on standard input. Its report is all that can be seen of it: exit
code, standard output, the error if there was one, and the files behind it.
-/

namespace Curried.Cli

inductive Fault where
  | source (failure : Failure)
  | file (error : FileError)
  | lineEditor (error : FileError)
  deriving DecidableEq

def Fault.message : Fault → String
  | source (.parse e) => s!"parse error: {e.message}"
  | source (.eval e) => e.message
  | file e => s!"could not read source: {e.message}"
  | lineEditor e => s!"line editor failed: {e.message}"

def Fault.report (fault : Fault) : String := s!"Error: {fault.message}\n"

def versionText : String := "tiny_repl 0.1.0\n"

def helpText : String :=
  .join
    ["Interpreter for a tiny curried functional language\n\n",
     "Usage: tiny [OPTIONS] [FILE]\n\n",
     "Arguments:\n",
     "  [FILE]  Source file to run instead of starting the REPL\n\n",
     "Options:\n",
     "  -e, --eval <EVAL>        Evaluate the given source, print the result and exit\n",
     "      --history <HISTORY>  File the REPL history is kept in ",
     "[default: .tiny-interp-history]\n",
     "      --no-history         Neither load nor save REPL history\n",
     "      --prompt <PROMPT>    REPL prompt [default: \"> \"]\n",
     "  -v, --verbose            Print verbose log output\n",
     "  -h, --help               Print help\n",
     "  -V, --version            Print version\n"]

def Refusal.code : Refusal → UInt32
  | help | version => 0
  | _ => 2

def Refusal.output : Refusal → String
  | help => helpText
  | version => versionText
  | _ => ""

structure Report where
  code : UInt32
  output : String
  error : Option String
  files : Directory

namespace Report

def success (output : String) (files : Directory) : Report := ⟨0, output, none, files⟩

def failure (output : String) (fault : Fault) (files : Directory) : Report :=
  ⟨1, output, some fault.report, files⟩

end Report

/-- What a source text that is run once shows, or why it fails. -/
def sourceOutput (run : Run) : Except Fault String :=
  match run.result with
  | .ok (some v) => .ok s!"{v.text}\n"
  | .ok none => .ok ""
  | .error failure => .error (.source failure)

structure Invocation where
  words : List String
  files : Directory := {}
  showsPrompt : Bool := false

namespace Invocation

def runSource (i : Invocation) (depth : Nat) (source : String) : Option Report :=
  (Run.ofSource depth .empty source).map fun run =>
    match sourceOutput run with
    | .ok output => .success output i.files
    | .error fault => .failure "" fault i.files

def runSession (i : Invocation) (depth : Nat) (o : Options) : Option Report :=
  let prompt := if i.showsPrompt then o.prompt else ""
  let session := Session.start i.files o.historyPath
  (session.run depth prompt o.historyPath (Text.lines session.files.input)).map fun ending =>
    let output := Session.banner ++ ending.output
    if ending.isBroken then .failure output (.lineEditor .notText) ending.files
    else .success output ending.files

/-- The report of an invocation, if every run in it finishes within the call depth. -/
def report (i : Invocation) (depth : Nat) : Option Report :=
  match Options.read i.words with
  | .error refusal => some ⟨refusal.code, refusal.output, none, i.files⟩
  | .ok o =>
    match o.eval, o.file with
    | some source, _ => i.runSource depth source
    | none, some path =>
      match i.files.readText path with
      | .ok source => i.runSource depth source
      | .error e => some (.failure "" (.file e) i.files)
    | none, none => i.runSession depth o

end Invocation

end Curried.Cli
