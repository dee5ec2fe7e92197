import Curried.Cli.Directory
import Curried.Cli.History
import Curried.Run

/-!
# Sessions

A session answers one line after the other. Bindings carry over from line to
line, also behind a line that fails. Two words end the session, blank lines are
passed over, and every other line is kept in the history, which is written out
whenever it has grown. A history that cannot be written is no error.
-/

namespace Curried.Cli

inductive Command where
  | leave
  | skip
  | bindings
  | source
  deriving DecidableEq, Repr

def Command.ofLine (line : String) : Command :=
  match Text.trim line with
  | "exit" => .leave
  | "quit" => .leave
  | "" => .skip
  | ":env" => .bindings
  | _ => .source

def bindingsText (env : Environment) : String :=
  if env.isEmpty then "(no bindings)\n"
  else .join (env.listing.map fun (x, v) => s!"{x} = {v}\n")

def resultText : Except Failure (Option Value) → String
  | .ok (some v) => s!"{v.text}\n"
  | .ok none => ""
  | .error (.parse e) => s!"Parse error: {e.message}\n"
  | .error (.eval e) => s!"Error: {e.message}\n"

/-- What is shown for a line, the environment behind it, and the trace. -/
structure Answer where
  output : String
  env : Environment
  entries : List Trace.Entry

def Command.answer (depth : Nat) (env : Environment) (line : String) : Command → Option Answer
  | leave => some ⟨"", env, []⟩
  | skip => some ⟨"", env, []⟩
  | bindings => some ⟨bindingsText env, env, []⟩
  | source =>
    (Run.ofSource depth env line).map fun run => ⟨resultText run.result, run.env, run.entries⟩

/-- Whether the line belongs into the history. -/
def Command.isKept : Command → Bool
  | bindings | source => true
  | leave | skip => false

structure Session where
  env : Environment := .empty
  history : History := {}
  files : Directory := {}

namespace Session

def banner : String := "tiny v0.1.0\n"

/-- A session with the history of a file, if there is one. When that file is standard input, the
session gets only what is left of it. -/
def start (files : Directory) (historyPath : Option String) : Session :=
  match historyPath with
  | none => { files := files }
  | some path =>
    match files.read path with
    | .ok content =>
      { history := .ofFile content, files := files.afterReading path History.bytesRead }
    | .error _ => { files := files }

def keep (s : Session) (historyPath : Option String) (line : String) : Session :=
  let history := s.history.add line
  match historyPath, history.unsaved? with
  | some path, some text =>
    match s.files.write? path text.toUTF8 with
    | some files => { s with history := history.saved, files := files }
    | none => { s with history := history }
  | _, _ => { s with history := history }

/-- How a session ended: what it showed, the files behind it, and whether it met a line that is
not text. -/
structure Ending where
  output : String
  files : Directory
  isBroken : Bool := false

/-- Answers one line, which does not end the session. -/
def step (depth : Nat) (historyPath : Option String) (s : Session) (line : String) :
    Option (Answer × Session) :=
  let command := Command.ofLine line
  let s := if command.isKept then s.keep historyPath line else s
  (command.answer depth s.env line).map fun answer => (answer, { s with env := answer.env })

def run (depth : Nat) (prompt : String) (historyPath : Option String) :
    Session → List (Option String) → Option Ending
  | s, [] => some ⟨prompt, s.files, false⟩
  | s, none :: _ => some ⟨prompt, s.files, true⟩
  | s, some line :: lines =>
    if Command.ofLine line = .leave then some ⟨prompt, s.files, false⟩
    else do
      let (answer, s) ← s.step depth historyPath line
      let ending ← run depth prompt historyPath s lines
      some { ending with output := prompt ++ answer.output ++ ending.output }

end Session

end Curried.Cli
