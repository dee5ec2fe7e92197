import Curried.Lexeme

/-!
# Scanners

A scanner is a source text together with a byte offset, which may be set to any
number at all. Reading works from the character boundaries of the source;
from every other offset there is no answer and the scanner stays where it is.
-/

namespace Curried

structure Scanner where
  source : String
  offset : Nat := 0
  deriving DecidableEq, Repr

namespace Scanner

open Text

def ofSource (source : String) : Scanner := ⟨source, 0⟩

def rest? (s : Scanner) : Option (List Char) := dropBytes? s.offset s.source.toList

def seek (s : Scanner) (offset : Nat) : Scanner := ⟨s.source, offset⟩

/-- The source from the next word on. -/
def remaining? (s : Scanner) : Option String :=
  s.rest?.map fun cs => .ofList (dropBlanks cs)

/-- The next lexeme and the scanner behind it. When only blanks are left there is no lexeme,
and they are passed over all the same. -/
def next? (s : Scanner) : Option (Option Lexeme × Scanner) :=
  s.rest?.map fun cs =>
    match Lexeme.next? s.offset cs with
    | some (lexeme, _) => (some lexeme, s.seek lexeme.span.stop)
    | none => (none, s.seek (s.offset + size cs))

theorem rest?_isSome_iff (s : Scanner) :
    s.rest?.isSome = true ↔ IsBoundary s.source.toList s.offset :=
  dropBytes?_isSome_iff

end Scanner

end Curried
