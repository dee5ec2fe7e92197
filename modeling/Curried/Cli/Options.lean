/-!
# Command line options

Words are read from left to right. A setting takes its value from the same word
or from the next one; a switch takes none. What was read last stays pending
until the next word shows that it is complete, and only then is it entered.
The first problem that is met decides the answer.
-/

namespace Curried.Cli

structure Options where
  file : Option String := none
  eval : Option String := none
  history : String := ".tiny-interp-history"
  noHistory : Bool := false
  prompt : String := "> "
  verbose : Bool := false
  deriving DecidableEq, Repr

def Options.historyPath (o : Options) : Option String :=
  if o.noHistory then none else some o.history

/-- Why a command line gives no options. The first two are requests, not mistakes. -/
inductive Refusal where
  | help
  | version
  | unknownArgument
  | repeated
  | invalidValue
  | unneededValue
  deriving DecidableEq, Repr

inductive Setting where
  | eval
  | history
  | prompt
  deriving DecidableEq, Repr

inductive Switch where
  | noHistory
  | verbose
  | help
  | version
  deriving DecidableEq, Repr

inductive Flag where
  | setting (s : Setting)
  | switch (s : Switch)
  deriving DecidableEq, Repr

namespace Flag

def ofName? : String → Option Flag
  | "eval" => some (setting .eval)
  | "history" => some (setting .history)
  | "prompt" => some (setting .prompt)
  | "no-history" => some (switch .noHistory)
  | "verbose" => some (switch .verbose)
  | "help" => some (switch .help)
  | "version" => some (switch .version)
  | _ => none

def ofLetter? : Char → Option Flag
  | 'e' => some (setting .eval)
  | 'v' => some (switch .verbose)
  | 'h' => some (switch .help)
  | 'V' => some (switch .version)
  | _ => none

end Flag

namespace Options

structure Draft where
  file : Option String := none
  eval : Option String := none
  history : Option String := none
  prompt : Option String := none
  noHistory : Bool := false
  verbose : Bool := false

/-- What was read last and is not entered yet. -/
inductive Pending where
  | nothing
  | awaiting (s : Setting)
  | setting (s : Setting) (value : String)
  | file (path : String)

structure Progress where
  draft : Draft := {}
  pending : Pending := .nothing
  hasFile : Bool := false
  onlyFiles : Bool := false

namespace Draft

/-- Enters the value of a setting, once. The empty text names no file. -/
def enter (d : Draft) (s : Setting) (value : String) : Except Refusal Draft :=
  match s with
  | .eval => if d.eval.isSome then .error .repeated else .ok { d with eval := some value }
  | .prompt => if d.prompt.isSome then .error .repeated else .ok { d with prompt := some value }
  | .history =>
    if d.history.isSome then .error .repeated
    else if value.isEmpty then .error .invalidValue
    else .ok { d with history := some value }

def turnOn (d : Draft) : Switch → Except Refusal Draft
  | .help => .error .help
  | .version => .error .version
  | .noHistory => if d.noHistory then .error .repeated else .ok { d with noHistory := true }
  | .verbose => if d.verbose then .error .repeated else .ok { d with verbose := true }

def enterFile (d : Draft) (path : String) : Except Refusal Draft :=
  if path.isEmpty then .error .invalidValue else .ok { d with file := some path }

def options (d : Draft) : Options where
  file := d.file
  eval := d.eval
  history := d.history.getD ({} : Options).history
  noHistory := d.noHistory
  prompt := d.prompt.getD ({} : Options).prompt
  verbose := d.verbose

end Draft

namespace Progress

/-- Enters what is pending. A setting that still waits for its value will not get one. -/
def settle (p : Progress) : Except Refusal Progress :=
  match p.pending with
  | .nothing => .ok p
  | .awaiting _ => .error .invalidValue
  | .setting s value => (p.draft.enter s value).map ({ p with draft := ·, pending := .nothing })
  | .file path => (p.draft.enterFile path).map ({ p with draft := ·, pending := .nothing })

def turnOn (p : Progress) (s : Switch) : Except Refusal Progress := do
  let p ← p.settle
  let draft ← p.draft.turnOn s
  return { p with draft := draft }

/-- A setting whose value, if any, was written in the same word. -/
def set (p : Progress) (s : Setting) (value : Option String) : Except Refusal Progress := do
  let p ← p.settle
  match value with
  | none => return { p with pending := .awaiting s }
  | some value => settle { p with pending := .setting s value }

def longWord (p : Progress) (cs : List Char) : Except Refusal Progress :=
  let (name, rest) := cs.span (· != '=')
  let value := match rest with
    | [] => none
    | _ :: value => some (String.ofList value)
  match Flag.ofName? (.ofList name) with
  | none => .error .unknownArgument
  | some (.setting s) => p.set s value
  | some (.switch s) => if value.isSome then .error .unneededValue else p.turnOn s

/-- Letters behind one dash. A setting takes the rest of the word as its value; an equals sign
before the value is dropped. -/
def letters (p : Progress) : List Char → Except Refusal Progress
  | [] => .ok p
  | c :: cs =>
    match Flag.ofLetter? c with
    | none => .error .unknownArgument
    | some (.switch s) => do letters (← p.turnOn s) cs
    | some (.setting s) =>
      match cs with
      | [] => p.set s none
      | '=' :: value => p.set s (some (.ofList value))
      | value => p.set s (some (.ofList value))

/-- The name of the source file, which may be given once. -/
def file (p : Progress) (path : String) : Except Refusal Progress := do
  if p.hasFile then throw .unknownArgument
  let p ← p.settle
  return { p with pending := .file path, hasFile := true }

/-- A word that is no option: the value that is waited for, or the source file. -/
def plainWord (p : Progress) (word : String) : Except Refusal Progress :=
  match p.pending with
  | .awaiting s => .ok { p with pending := .setting s word }
  | _ => p.file word

def word (p : Progress) (word : String) : Except Refusal Progress :=
  if p.onlyFiles then p.file word
  else
    match word.toList with
    | ['-', '-'] => .ok { p with onlyFiles := true }
    | '-' :: '-' :: cs => p.longWord cs
    | '-' :: c :: cs => p.letters (c :: cs)
    | _ => p.plainWord word

end Progress

def read (words : List String) : Except Refusal Options := do
  let p ← words.foldlM Progress.word {}
  let p ← p.settle
  return p.draft.options

end Options

end Curried.Cli
