import Curried.Text
import Curried.Token

/-!
# Lexemes

A span is the place of a piece of text: the byte offsets where it starts and
stops. A lexeme is a token at its place in the source. Six characters are delimiters
and always make a token of their own; every other token is a longest run
without blanks and delimiters. Each step takes at least one character, so
`Lexeme.readAll` needs no bound from its caller.
-/

namespace Curried

structure Span where
  start : Nat
  stop : Nat
  deriving DecidableEq, Repr

def Span.text (s : Span) : String := s!"{s.start}:{s.stop}"

structure Lexeme where
  token : Token
  span : Span
  deriving DecidableEq, Repr

namespace Lexeme

open Text

def isDelimiter (c : Char) : Bool :=
  ['(', ')', '{', '}', ';', ','].contains c

def isWordPart (c : Char) : Bool := !isBlank c && !isDelimiter c

/-- The word that starts with `c`, and the characters behind it. -/
def splitWord (c : Char) (cs : List Char) : List Char × List Char :=
  if isDelimiter c then ([c], cs) else (c :: cs.takeWhile isWordPart, cs.dropWhile isWordPart)

theorem splitWord_append (c : Char) (cs : List Char) :
    (splitWord c cs).1 ++ (splitWord c cs).2 = c :: cs := by
  unfold splitWord
  split
  · rfl
  · simp

theorem splitWord_ne_nil (c : Char) (cs : List Char) : (splitWord c cs).1 ≠ [] := by
  unfold splitWord
  split <;> simp

def ofWord (start : Nat) (word : List Char) : Lexeme :=
  ⟨.classify (.ofList word), ⟨start, start + size word⟩⟩

/-- The first lexeme of the characters at an offset, and the characters behind it;
nothing when there are only blanks. -/
def next? (offset : Nat) (cs : List Char) : Option (Lexeme × List Char) :=
  match dropBlanks cs with
  | [] => none
  | c :: rest =>
    let (word, rest) := splitWord c rest
    some (ofWord (offset + size (cs.takeWhile isBlank)) word, rest)

theorem next?_length_lt {offset : Nat} {cs rest : List Char} {lexeme : Lexeme}
    (h : next? offset cs = some (lexeme, rest)) : rest.length < cs.length := by
  unfold next? at h
  split at h
  · cases h
  next c tail hdrop =>
    have hword : 0 < (splitWord c tail).1.length :=
      List.length_pos_iff.mpr (splitWord_ne_nil c tail)
    have hsplit := congrArg List.length (splitWord_append c tail)
    have hle : (dropBlanks cs).length ≤ cs.length := (List.dropWhile_sublist _).length_le
    simp only [Option.some.injEq, Prod.mk.injEq] at h
    rw [hdrop] at hle
    simp only [List.length_append, List.length_cons] at hsplit hle
    rw [← h.2]
    omega

/-- All lexemes of the characters at an offset, in order. -/
def readAll (offset : Nat) (cs : List Char) : List Lexeme :=
  match _h : next? offset cs with
  | none => []
  | some (lexeme, rest) => lexeme :: readAll lexeme.span.stop rest
termination_by cs.length
decreasing_by exact next?_length_lt _h

def ofSource (source : String) : List Lexeme := readAll 0 source.toList

end Lexeme

end Curried
