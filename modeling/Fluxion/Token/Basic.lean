/-!
# Tokens

A token is a stretch of source text together with its class and the byte offset at which it
starts. Offsets count bytes of the text's UTF-8 form, so a token that starts at `s` and whose
text has `n` bytes ends at `s + n`.
-/

namespace Fluxion

/-- The characters that stand for themselves. `dollar` marks the end of the input. -/
inductive Punct where
  | plus | minus | star | slash | caret
  | greater | less | tilde | equals
  | comma | semicolon
  | openParen | closeParen | openCurly | closeCurly
  | dollar
  deriving DecidableEq

namespace Punct

/-- The character written for a punctuation mark. -/
def char : Punct → Char
  | plus => '+'
  | minus => '-'
  | star => '*'
  | slash => '/'
  | caret => '^'
  | greater => '>'
  | less => '<'
  | tilde => '~'
  | equals => '='
  | comma => ','
  | semicolon => ';'
  | openParen => '('
  | closeParen => ')'
  | openCurly => '\x7b'
  | closeCurly => '\x7d'
  | dollar => '$'

/-- The punctuation mark that a character is, if it is one. -/
def ofChar? : Char → Option Punct
  | '+' => some plus
  | '-' => some minus
  | '*' => some star
  | '/' => some slash
  | '^' => some caret
  | '>' => some greater
  | '<' => some less
  | '~' => some tilde
  | '=' => some equals
  | ',' => some comma
  | ';' => some semicolon
  | '(' => some openParen
  | ')' => some closeParen
  | '\x7b' => some openCurly
  | '\x7d' => some closeCurly
  | '$' => some dollar
  | _ => none

end Punct

/-- The words that no identifier may be. -/
inductive Keyword where
  | functionKw | ifKw | elseKw | whileKw | forKw | returnKw
  deriving DecidableEq

namespace Keyword

/-- The spelling of a keyword. -/
def text : Keyword → String
  | functionKw => "function"
  | ifKw => "if"
  | elseKw => "else"
  | whileKw => "while"
  | forKw => "for"
  | returnKw => "return"

/-- Every keyword once. -/
def all : List Keyword := [functionKw, ifKw, elseKw, whileKw, forKw, returnKw]

/-- The keyword with a given spelling, if there is one. -/
def ofText? (word : String) : Option Keyword :=
  all.find? fun keyword => keyword.text == word

end Keyword

/-- The class of a token. A `symbol` is a character that belongs to no other class. -/
inductive Kind where
  | blank
  | punct (mark : Punct)
  | keyword (word : Keyword)
  | name
  | integer
  | decimal
  | symbol
  deriving DecidableEq

/-- A stretch of source text with its class and the byte offset of its first character. -/
structure Token where
  kind : Kind
  text : String
  start : Nat
  deriving DecidableEq

namespace Token

/-- The byte offset just after the token. -/
def stop (token : Token) : Nat := token.start + token.text.utf8ByteSize

/-- A token that only separates others. -/
def isBlank (token : Token) : Bool := token.kind == .blank

/-- A token that holds a number: digits, with or without a fraction. -/
def isNumber (token : Token) : Bool := token.kind == .integer || token.kind == .decimal

end Token

end Fluxion
