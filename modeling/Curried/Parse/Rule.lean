import Curried.Lexeme
import Curried.Log

/-!
# Rules that read lexemes

A rule reads from a cursor and replies with what it found and where it stopped,
or with the reason why it failed. It also reports, in order, each time it took
back a choice. A rule that is attempted and fails leaves the cursor as it was.

Every failure but one can be recovered from by trying another way to read the
text. A number that is too large is an error however it is read.
-/

namespace Curried

inductive ParseError where
  | unexpected (expected found : String) (span : Span)
  | endOfInput
  | leftover (rest : String)
  | overflow (digits : String) (span : Span)
  deriving DecidableEq, Repr

namespace ParseError

def isRecoverable : ParseError → Bool
  | overflow .. => false
  | _ => true

def message : ParseError → String
  | unexpected expected found span => s!"expected {expected} but got `{found}` (at {span.text})"
  | endOfInput => "unexpected end of input"
  | leftover rest => s!"could not parse `{rest}`"
  | overflow digits span => s!"number `{digits}` does not fit in 32 bits (at {span.text})"

/-- The lexeme stands where something else was expected. -/
def ofLexeme (expected : String) (found : Lexeme) : ParseError :=
  unexpected expected found.token.text found.span

end ParseError

namespace Parse

/-- The lexemes still to be read, and the offset behind the last one that was read. -/
structure Cursor where
  position : Nat
  rest : List Lexeme
  deriving DecidableEq, Repr

inductive Event where
  | backtracked (position : Nat) (error : ParseError)
  | repeatedName (position : Nat)
  | groupIsBody (params : Nat)
  | parsed (statements : Nat)
  deriving DecidableEq, Repr

structure Reply (α : Type) where
  events : Log Event
  result : Except ParseError (α × Cursor)

def Rule (α : Type) : Type := Cursor → Reply α

namespace Rule

variable {α β γ : Type}

def done (a : α) : Rule α := fun c => ⟨.empty, .ok (a, c)⟩

/-- The second rule goes on where the first one stopped. -/
def andThen (r : Rule α) (f : α → Rule β) : Rule β := fun c =>
  let first := r c
  match first.result with
  | .error e => ⟨first.events, .error e⟩
  | .ok (a, c') =>
    let second := f a c'
    ⟨first.events ++ second.events, second.result⟩

instance : Monad Rule where
  pure := done
  bind := andThen

theorem bind_eq_andThen (r : Rule α) (f : α → Rule β) : (r >>= f) = r.andThen f := rfl

theorem andThen_assoc (r : Rule α) (f : α → Rule β) (g : β → Rule γ) :
    (r.andThen f).andThen g = r.andThen fun a => (f a).andThen g := by
  funext c
  simp only [andThen]
  cases (r c).result with
  | error _ => rfl
  | ok found =>
    obtain ⟨a, c'⟩ := found
    cases h : (f a c').result <;> simp [h, Log.append_assoc]

def fail (e : ParseError) : Rule α := fun _ => ⟨.empty, .error e⟩

def emit (event : Event) : Rule Unit := fun c => ⟨.single event, .ok ((), c)⟩

def cursor : Rule Cursor := fun c => ⟨.empty, .ok (c, c)⟩

def rewind (c : Cursor) : Rule Unit := fun _ => ⟨.empty, .ok ((), c)⟩

def next : Rule Lexeme := fun c =>
  match c.rest with
  | [] => ⟨.empty, .error .endOfInput⟩
  | lexeme :: rest => ⟨.empty, .ok (lexeme, ⟨lexeme.span.stop, rest⟩)⟩

/-- The next token, which stays to be read. -/
def peek : Rule Token := fun c =>
  match c.rest with
  | [] => ⟨.empty, .error .endOfInput⟩
  | lexeme :: _ => ⟨.empty, .ok (lexeme.token, c)⟩

def nextIs (p : Token → Bool) : Rule Bool := fun c =>
  match c.rest with
  | [] => ⟨.empty, .ok (false, c)⟩
  | lexeme :: _ => ⟨.empty, .ok (p lexeme.token, c)⟩

/-- Runs a rule and replies with nothing, at the same cursor, if it fails for a reason that can
be recovered from. -/
def attempt (r : Rule α) : Rule (Option α) := fun c =>
  let reply := r c
  match reply.result with
  | .ok (a, c') => ⟨reply.events, .ok (some a, c')⟩
  | .error e =>
    if e.isRecoverable then ⟨reply.events ++ .single (.backtracked c.position e), .ok (none, c)⟩
    else ⟨reply.events, .error e⟩

/-- Why a rule fails here, if it does. The cursor stays. -/
def failure? (r : Rule α) : Rule (Option ParseError) := fun c =>
  let reply := r c
  match reply.result with
  | .ok _ => ⟨reply.events, .ok (none, c)⟩
  | .error e => ⟨reply.events, .ok (some e, c)⟩

def expect (token : Token) : Rule Unit := do
  let lexeme ← next
  if lexeme.token = token then done () else fail (.ofLexeme s!"`{token.text}`" lexeme)

def identifier : Rule String := do
  let lexeme ← next
  match lexeme.token with
  | .identifier name => done name
  | _ => fail (.ofLexeme "identifier" lexeme)

/-- Attempts a rule until it fails, once for each lexeme of the bound and once more. -/
def manyWithin (r : Rule α) : List Lexeme → Rule (List α)
  | [] => do
    let last ← attempt r
    done last.toList
  | _ :: bound => do
    match ← attempt r with
    | none => done []
    | some a =>
      let as ← manyWithin r bound
      done (a :: as)

/-- Attempts a rule until it fails. Each success has to read a lexeme, so there are never more
of them than lexemes. -/
def many (r : Rule α) : Rule (List α) := fun c => manyWithin r c.rest c

end Rule

end Parse

end Curried
