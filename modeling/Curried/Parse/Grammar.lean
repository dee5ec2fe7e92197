import Curried.Expr
import Curried.Parse.Rule

/-!
# The rules of the grammar

Each rule is given the rule for expressions inside it. `expression` ties the
knot: an expression inside another one starts at least one lexeme later, so the
number of lexemes left bounds the depth, and at depth zero the input is over.

A function reads its parameter groups greedily and stops before a group that
repeats a name. When no expression can start behind the last group, that group
is the start of the body instead.
-/

namespace Curried.Parse

open Rule

/-- The value of a numeral, unless it takes more than 32 bits. -/
def number? (digits : String) : Option UInt32 :=
  let n := Nat.ofDigitChars 10 digits.toList 0
  if n < UInt32.size then some (.ofNat n) else none

/-- Names, each behind a comma, up to the closing parenthesis. Reads at most one name for each
lexeme of the bound. -/
def namesWithin : List Lexeme → Rule (List String)
  | [] => fail .endOfInput
  | _ :: bound => do
    let lexeme ← next
    match lexeme.token with
    | .comma =>
      let name ← identifier
      let names ← namesWithin bound
      done (name :: names)
    | .rightParen => done []
    | _ => fail (.ofLexeme "`,` or `)`" lexeme)

def moreNames : Rule (List String) := fun c => namesWithin c.rest c

def group : Rule (List String) := do
  if (← peek) = .leftParen then
    expect .leftParen
    let name ← identifier
    let names ← moreNames
    done (name :: names)
  else
    let name ← identifier
    done [name]

/-- A parameter group and the cursor before it. -/
structure Group where
  start : Cursor
  names : List String

/-- Groups up to the first that cannot be read or that repeats a name taken before. Reads at most
one group for each lexeme of the bound, and attempts one more. -/
def groupsWithin : List Lexeme → List String → Rule (List Group)
  | [], _ => do
    let _ ← attempt group
    done []
  | _ :: bound, taken => do
    let start ← cursor
    match ← attempt group with
    | none => done []
    | some names =>
      if names.any taken.contains then
        emit (.repeatedName start.position)
        rewind start
        done []
      else
        let groups ← groupsWithin bound (names ++ taken)
        done (⟨start, names⟩ :: groups)

def moreGroups (taken : List String) : Rule (List Group) := fun c =>
  groupsWithin c.rest taken c

/-- The parameters of a function. The cursor ends where the body starts. -/
def params : Rule (List String) := do
  let first ← group
  let groups ← moreGroups first
  if ← nextIs Token.startsExpression then
    done (first ++ groups.flatMap Group.names)
  else
    match groups.getLast? with
    | none => done first
    | some last =>
      let names := first ++ groups.dropLast.flatMap Group.names
      emit (.groupIsBody names.length)
      rewind last.start
      done names

section Expressions

variable (expr : Rule Expr)

def function : Rule Expr := do
  expect .fnWord
  let names ← params
  let body ← expr
  done (.function names body)

def conditional : Rule Expr := do
  expect .ifWord
  let condition ← expr
  expect .thenWord
  let whenTrue ← expr
  expect .elseWord
  let whenFalse ← expr
  done (.ifThenElse condition whenTrue whenFalse)

def binding : Rule Statement := do
  expect .letWord
  let name ← identifier
  expect .equal
  let body ← expr
  done (.bind name body)

def statement : Rule Statement := do
  match ← peek with
  | .letWord => binding expr
  | _ =>
    let body ← expr
    done (.expr body)

def nextStatement : Rule Statement := do
  expect .semicolon
  statement expr

/-- Statements with semicolons between them, and maybe one behind the last. -/
def statements : Rule (List Statement) := do
  match ← attempt (statement expr) with
  | none => done []
  | some first =>
    let others ← many (nextStatement expr)
    let _ ← attempt (expect .semicolon)
    done (first :: others)

def term : Rule Expr := do
  let lexeme ← next
  match lexeme.token with
  | .leftParen =>
    let inner ← expr
    expect .rightParen
    done inner
  | .leftBrace =>
    let body ← statements expr
    expect .rightBrace
    done (.block body)
  | .number digits =>
    match number? digits with
    | some value => done (.number value)
    | none => fail (.overflow digits lexeme.span)
  | .identifier name => done (.name name)
  | _ => fail (.ofLexeme "an expression" lexeme)

/-- Terms side by side: the first is applied to the others in turn. -/
def application : Rule Expr := do
  let callee ← term expr
  let arguments ← many (term expr)
  done (arguments.foldl .apply callee)

def operator : Rule Operator := do
  let lexeme ← next
  match Operator.ofToken? lexeme.token with
  | some op => done op
  | none => fail (.ofLexeme "operator" lexeme)

def operand : Rule (Operator × Expr) := do
  let op ← operator
  let right ← application expr
  done (op, right)

/-- Applications with operators between them, all of one rank and taken from the left. -/
def chain : Rule Expr := do
  let first ← application expr
  let operands ← many (operand expr)
  done (operands.foldl (fun left (op, right) => .binary op left right) first)

def expressionOf : Rule Expr := do
  match ← peek with
  | .fnWord => function expr
  | .ifWord => conditional expr
  | _ => chain expr

end Expressions

/-- Reads an expression when at most `depth` lexemes are left. -/
def expression : Nat → Rule Expr
  | 0 => fail .endOfInput
  | depth + 1 => expressionOf (expression depth)

end Curried.Parse
