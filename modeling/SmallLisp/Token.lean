/-!
# Tokens

The words that a text is made of: brackets, the quote mark, numbers, strings, symbols and keywords.
A piece of text that is none of these is a lexical fault at a position.
-/

namespace SmallLisp

/-- The three kinds of brackets. -/
inductive Bracket where
  /-- `(` and `)`, around a list. -/
  | round
  /-- `[` and `]`, around a vector. -/
  | square
  /-- `{` and `}`, around a map. -/
  | curly
deriving DecidableEq

namespace Bracket

/-- The character that opens a bracket. -/
def opener : Bracket → Char
  | round => '('
  | square => '['
  | curly => '\x7b'

/-- The character that closes a bracket. -/
def closer : Bracket → Char
  | round => ')'
  | square => ']'
  | curly => '\x7d'

/-- The bracket that a character opens. -/
def ofOpener? (c : Char) : Option Bracket :=
  if c = '(' then some round else if c = '[' then some square
  else if c = '\x7b' then some curly else none

/-- The bracket that a character closes. -/
def ofCloser? (c : Char) : Option Bracket :=
  if c = ')' then some round else if c = ']' then some square
  else if c = '\x7d' then some curly else none

@[simp] theorem ofOpener?_opener (b : Bracket) : ofOpener? b.opener = some b := by
  cases b <;> rfl

@[simp] theorem ofCloser?_closer (b : Bracket) : ofCloser? b.closer = some b := by
  cases b <;> rfl

end Bracket

/-- A word of the text. -/
inductive Token where
  /-- An opening bracket. -/
  | opening (b : Bracket)
  /-- A closing bracket. -/
  | closing (b : Bracket)
  /-- The quote mark. -/
  | quote
  /-- An integer. -/
  | int (n : Int64)
  /-- A float. -/
  | float (x : Float)
  /-- A string, its escapes resolved. -/
  | str (text : String)
  /-- A symbol, not yet split at its slash. -/
  | symbol (text : String)
  /-- A keyword, without its colons; `auto` tells two colons from one. -/
  | keyword (text : String) (auto : Bool)

/-- What can be wrong with a piece of text. -/
inductive LexFault where
  /-- A string without its closing quote. -/
  | unterminatedString
  /-- A backslash before a character that has no escape. -/
  | invalidEscape (c : Char)
  /-- A word that begins as a number and is none. -/
  | invalidNumber (text : String)
  /-- A keyword without a name, or with a third colon. -/
  | invalidKeyword
deriving DecidableEq

/-- A lexical fault at a position, counted in characters from the start of the text. -/
structure LexError where
  /-- Where the fault lies. -/
  position : Nat
  /-- What is wrong. -/
  fault : LexFault
deriving DecidableEq

/-- One result of lexing: a token or a fault, and the position after it. -/
structure Lexeme where
  /-- The token, or the fault that stands in its place. -/
  result : Except LexError Token
  /-- The position of the first character not yet used. -/
  stop : Nat

end SmallLisp
