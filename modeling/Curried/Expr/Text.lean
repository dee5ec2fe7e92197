import Curried.Expr

/-!
# The canonical text of a tree

A tree is written as a list of words with one space between them. Operands,
callees, arguments and the three parts of a conditional always stand in
parentheses, so that no rule of precedence is needed to read the text again.

The words are defined by joining lists. To write them out they are put in front
of the words that follow, which takes one pass over the tree.
-/

namespace Curried

/-- The words of several pieces with a separator word between two of them. -/
def separated (word : String) : List (List String) → List String
  | [] => []
  | [piece] => piece
  | piece :: pieces => piece ++ word :: separated word pieces

def parenthesized (words : List String) : List String := "(" :: words ++ [")"]

/-- One parameter stands alone, several stand in parentheses with commas between them. A list
without parameters keeps its place as an empty word. -/
def paramWords : List String → List String
  | [] => parenthesized [""]
  | [x] => [x]
  | xs => parenthesized (separated "," (xs.map fun x => [x]))

def functionWords (params bodyWords : List String) : List String :=
  "fn" :: paramWords params ++ bodyWords

mutual

def Expr.words : Expr → List String
  | .number n => [toString n.toNat]
  | .name x => [x]
  | .function params body => functionWords params body.words
  | .apply callee argument => parenthesized callee.words ++ parenthesized argument.words
  | .binary op left right => parenthesized left.words ++ op.text :: parenthesized right.words
  | .ifThenElse c t e =>
    "if" :: parenthesized c.words ++ "then" :: parenthesized t.words ++
      "else" :: parenthesized e.words
  | .block ss => "\x7b" :: separated ";" (statementWords ss) ++ ["\x7d"]

def Statement.words : Statement → List String
  | .bind x body => "let" :: x :: "=" :: body.words
  | .expr body => body.words

def statementWords : List Statement → List (List String)
  | [] => []
  | s :: ss => s.words :: statementWords ss

end

@[simp] theorem statementWords_eq_map (ss : List Statement) :
    statementWords ss = ss.map Statement.words := by
  induction ss with
  | nil => rfl
  | cons s ss ih => simp [statementWords, ih]

def Program.words (p : Program) : List String := separated ";" (statementWords p)

mutual

/-- The words of a tree, in front of those that follow. -/
def Expr.wordsOnto : Expr → List String → List String
  | .number n, tail => toString n.toNat :: tail
  | .name x, tail => x :: tail
  | .function params body, tail => functionWords params (body.wordsOnto tail)
  | .apply callee argument, tail =>
    "(" :: callee.wordsOnto (")" :: "(" :: argument.wordsOnto (")" :: tail))
  | .binary op left right, tail =>
    "(" :: left.wordsOnto (")" :: op.text :: "(" :: right.wordsOnto (")" :: tail))
  | .ifThenElse c t e, tail =>
    "if" :: "(" :: c.wordsOnto (")" :: "then" :: "(" :: t.wordsOnto (")" :: "else" :: "(" ::
      e.wordsOnto (")" :: tail)))
  | .block ss, tail => "\x7b" :: Program.wordsOnto ss ("\x7d" :: tail)

def Statement.wordsOnto : Statement → List String → List String
  | .bind x body, tail => "let" :: x :: "=" :: body.wordsOnto tail
  | .expr body, tail => body.wordsOnto tail

def Program.wordsOnto : List Statement → List String → List String
  | [], tail => tail
  | [s], tail => s.wordsOnto tail
  | s :: ss, tail => s.wordsOnto (";" :: Program.wordsOnto ss tail)

end

mutual

theorem Expr.wordsOnto_eq_append (e : Expr) (tail : List String) :
    e.wordsOnto tail = e.words ++ tail := by
  match e with
  | .number _ => rfl
  | .name _ => rfl
  | .function _ body =>
    simp [Expr.wordsOnto, Expr.words, functionWords, body.wordsOnto_eq_append]
  | .apply callee argument =>
    simp [Expr.wordsOnto, Expr.words, parenthesized, callee.wordsOnto_eq_append,
      argument.wordsOnto_eq_append]
  | .binary _ left right =>
    simp [Expr.wordsOnto, Expr.words, parenthesized, left.wordsOnto_eq_append,
      right.wordsOnto_eq_append]
  | .ifThenElse c t e =>
    simp [Expr.wordsOnto, Expr.words, parenthesized, c.wordsOnto_eq_append,
      t.wordsOnto_eq_append, e.wordsOnto_eq_append]
  | .block ss =>
    simp [Expr.wordsOnto, Expr.words, Program.wordsOnto_eq_append ss]

theorem Statement.wordsOnto_eq_append (s : Statement) (tail : List String) :
    s.wordsOnto tail = s.words ++ tail := by
  match s with
  | .bind _ body => simp [Statement.wordsOnto, Statement.words, body.wordsOnto_eq_append]
  | .expr body => simp [Statement.wordsOnto, Statement.words, body.wordsOnto_eq_append]

theorem Program.wordsOnto_eq_append (ss : List Statement) (tail : List String) :
    Program.wordsOnto ss tail = separated ";" (statementWords ss) ++ tail := by
  match ss with
  | [] => rfl
  | [s] => simp [Program.wordsOnto, separated, s.wordsOnto_eq_append]
  | s :: t :: ss =>
    simp [Program.wordsOnto, separated, s.wordsOnto_eq_append,
      Program.wordsOnto_eq_append (t :: ss)]

end

def spaced (words : List String) : String := " ".intercalate words

def Expr.text (e : Expr) : String := spaced (e.wordsOnto [])

def Statement.text (s : Statement) : String := spaced (s.wordsOnto [])

def Program.text (p : Program) : String := spaced (Program.wordsOnto p [])

def functionText (params : List String) (body : Expr) : String :=
  spaced (functionWords params (body.wordsOnto []))

theorem Expr.text_eq_spaced_words (e : Expr) : e.text = spaced e.words := by
  simp [Expr.text, e.wordsOnto_eq_append]

theorem Statement.text_eq_spaced_words (s : Statement) : s.text = spaced s.words := by
  simp [Statement.text, s.wordsOnto_eq_append]

theorem Program.text_eq_spaced_words (p : Program) : p.text = spaced p.words := by
  simp [Program.text, Program.words, Program.wordsOnto_eq_append]

end Curried
