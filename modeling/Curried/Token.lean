/-!
# Tokens

The words of the language. `Token.classify` sorts any text into one token:
keywords and symbols first, then numerals, then identifiers; everything else is
an unknown word. `Token.text` is the text that a token stands for.
-/

namespace Curried

inductive Token where
  | plus
  | minus
  | equal
  | equalEqual
  | lessThan
  | greaterThan
  | comma
  | semicolon
  | leftParen
  | rightParen
  | leftBrace
  | rightBrace
  | letWord
  | fnWord
  | ifWord
  | thenWord
  | elseWord
  | identifier (name : String)
  | number (digits : String)
  | unknown (text : String)
  deriving DecidableEq, Repr

namespace Token

def keyword? : String → Option Token
  | "let" => some .letWord
  | "fn" => some .fnWord
  | "if" => some .ifWord
  | "then" => some .thenWord
  | "else" => some .elseWord
  | _ => none

def symbol? : String → Option Token
  | "+" => some .plus
  | "-" => some .minus
  | "=" => some .equal
  | "==" => some .equalEqual
  | "<" => some .lessThan
  | ">" => some .greaterThan
  | "," => some .comma
  | ";" => some .semicolon
  | "(" => some .leftParen
  | ")" => some .rightParen
  | "\x7b" => some .leftBrace
  | "\x7d" => some .rightBrace
  | _ => none

def isNumeral (cs : List Char) : Bool := !cs.isEmpty && cs.all Char.isDigit

def isNameStart (c : Char) : Bool := c.isAlpha || c == '_'

def isNamePart (c : Char) : Bool := c.isAlphanum || c == '_'

/-- A letter or low line, then letters, digits and low lines, all of them ASCII. -/
def isName : List Char → Bool
  | [] => false
  | c :: cs => isNameStart c && cs.all isNamePart

/-- The token that a word reads as when it is neither keyword nor symbol. -/
def classifyPlain (text : String) : Token :=
  if isNumeral text.toList then .number text
  else if isName text.toList then .identifier text
  else .unknown text

def classify (text : String) : Token :=
  match keyword? text with
  | some token => token
  | none =>
    match symbol? text with
    | some token => token
    | none => classifyPlain text

def text : Token → String
  | plus => "+"
  | minus => "-"
  | equal => "="
  | equalEqual => "=="
  | lessThan => "<"
  | greaterThan => ">"
  | comma => ","
  | semicolon => ";"
  | leftParen => "("
  | rightParen => ")"
  | leftBrace => "\x7b"
  | rightBrace => "\x7d"
  | letWord => "let"
  | fnWord => "fn"
  | ifWord => "if"
  | thenWord => "then"
  | elseWord => "else"
  | identifier name => name
  | number digits => digits
  | unknown word => word

theorem text_of_keyword? {s : String} {t : Token} (h : keyword? s = some t) : t.text = s := by
  revert h
  unfold keyword?
  split <;> intro h <;> cases h <;> rfl

theorem text_of_symbol? {s : String} {t : Token} (h : symbol? s = some t) : t.text = s := by
  revert h
  unfold symbol?
  split <;> intro h <;> cases h <;> rfl

@[simp] theorem text_classifyPlain (s : String) : (classifyPlain s).text = s := by
  unfold classifyPlain
  split
  · rfl
  · split <;> rfl

/-- No text is lost by classification. -/
@[simp] theorem text_classify (s : String) : (classify s).text = s := by
  unfold classify
  split
  next t h => exact text_of_keyword? h
  · split
    next t h => exact text_of_symbol? h
    · exact text_classifyPlain s

def startsExpression : Token → Bool
  | fnWord | ifWord | leftParen | leftBrace | number _ | identifier _ => true
  | _ => false

end Token

end Curried
