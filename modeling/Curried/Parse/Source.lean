import Curried.Parse.Grammar
import Curried.Scanner

/-!
# Reading a source text

A source text is a program when its statements use up all of its lexemes.
Otherwise the text behind the statements is left over; but when there is no
statement and the first one only breaks off, the input is said to end too soon.
-/

namespace Curried

namespace Parse

def start (source : String) : Cursor := ⟨0, Lexeme.ofSource source⟩

/-- The text from the cursor on, without the blanks before it. -/
def textFrom (source : String) (c : Cursor) : String :=
  (Scanner.mk source c.position).remaining?.getD ""

def program (source : String) : Rule Program := do
  let depth := (start source).rest.length
  let found ← statements (expression depth)
  let c ← Rule.cursor
  if c.rest.isEmpty then
    Rule.emit (.parsed found.length)
    Rule.done found
  else if found.isEmpty then
    match ← Rule.failure? (statement (expression depth)) with
    | some .endOfInput => Rule.fail .endOfInput
    | _ => Rule.fail (.leftover (textFrom source c))
  else
    Rule.fail (.leftover (textFrom source c))

end Parse

/-- Reads a source text, with the events on the way. -/
def Program.read (source : String) : Parse.Reply Program :=
  Parse.program source (Parse.start source)

def Program.parse (source : String) : Except ParseError Program :=
  (Program.read source).result.map Prod.fst

end Curried
