import SmallLisp.Decimal.Literal
import SmallLisp.Text.Blank
import SmallLisp.Token

/-!
# Lexing

A cursor is a position in a text together with the characters from there on. `Cursor.next?` takes
the next token off the front, after blanks, commas and comments; after a fault it goes on behind
the characters that the fault has used. Each step uses at least one character, and
`Cursor.lexemes` repeats the step to the end of the text.
-/

namespace SmallLisp

/-- A position in a text and the characters from there on. -/
structure Cursor where
  /-- The number of characters before the cursor. -/
  position : Nat
  /-- The characters from the cursor on. -/
  rest : List Char

/-- The start of a text. -/
def Cursor.start (text : String) : Cursor := ⟨0, text.toList⟩

/-- Whether a character ends a word: a blank, a comma, a bracket, a quote or a semicolon. -/
def isDelimiter (c : Char) : Bool :=
  Text.isBlank c || c == ',' || c == '(' || c == ')' || c == '[' || c == ']' || c == '\x7b' ||
    c == '\x7d' || c == '"' || c == ';' || c == '\x27'

/-- The character that an escape letter in a string stands for. -/
def unescape? (c : Char) : Option Char :=
  if c = 'n' then some '\n'
  else if c = 't' then some '\t'
  else if c = 'r' then some '\r'
  else if c = '0' then some '\x00'
  else if c = '"' then some '"'
  else if c = '\\' then some '\\'
  else none

namespace Cursor

/-- Moves over blanks and commas, and over comments, which run from a semicolon to the end of the
line. The flag tells whether the cursor is inside a comment. -/
def skip (inComment : Bool) (position : Nat) : List Char → Cursor
  | [] => ⟨position, []⟩
  | c :: cs =>
    if inComment then skip (c != '\n') (position + 1) cs
    else if Text.isBlank c || c == ',' then skip false (position + 1) cs
    else if c == ';' then skip true (position + 1) cs
    else ⟨position, c :: cs⟩

/-- Takes off the characters up to the next delimiter. -/
def word (c : Cursor) : List Char × Cursor :=
  let taken := c.rest.takeWhile (!isDelimiter ·)
  (taken, ⟨c.position + taken.length, c.rest.dropWhile (!isDelimiter ·)⟩)

/-- Reads the inside of a string, whose opening quote stands at `start`; `done` holds the
characters read so far, the last one first. A fault in an escape leaves the cursor at the
character after the backslash. -/
def stringBody (start : Nat) (done : List Char) (position : Nat) :
    List Char → Except LexError Token × Cursor
  | [] => (.error ⟨start, .unterminatedString⟩, ⟨position, []⟩)
  | ['\\'] => (.error ⟨start, .unterminatedString⟩, ⟨position + 1, []⟩)
  | '\\' :: c :: cs =>
    match unescape? c with
    | some d => stringBody start (d :: done) (position + 2) cs
    | none => (.error ⟨position + 1, .invalidEscape c⟩, ⟨position + 1, c :: cs⟩)
  | c :: cs =>
    if c = '"' then (.ok (.str (String.ofList done.reverse)), ⟨position + 1, cs⟩)
    else stringBody start (c :: done) (position + 1) cs

/-- The number that a word stands for: an integer if it is one, else a float. -/
def number (position : Nat) (cs : List Char) : Except LexError Token :=
  match Decimal.integer? cs with
  | some n => .ok (.int n)
  | none =>
    match Decimal.float? cs with
    | some x => .ok (.float x)
    | none => .error ⟨position, .invalidNumber (String.ofList cs)⟩

/-- Reads a keyword behind its first colon. -/
def keyword (c : Cursor) : Except LexError Token × Cursor :=
  let (auto, c) : Bool × Cursor :=
    match c.rest with
    | ':' :: cs => (true, ⟨c.position + 1, cs⟩)
    | _ => (false, c)
  let (name, c) := c.word
  if name.isEmpty || name.head? == some ':' then (.error ⟨c.position, .invalidKeyword⟩, c)
  else (.ok (.keyword (String.ofList name) auto), c)

/-- Whether a word that starts with these characters is meant as a number: it starts with a digit,
or with a sign and a digit. -/
def startsNumber : List Char → Bool
  | c :: d :: _ => c.isDigit || ((c == '-' || c == '+') && d.isDigit)
  | [c] => c.isDigit
  | [] => false

/-- Reads one token at a cursor that stands at neither a blank, a comma nor a comment. -/
def token (position : Nat) (c : Char) (cs : List Char) : Except LexError Token × Cursor :=
  match Bracket.ofOpener? c, Bracket.ofCloser? c with
  | some b, _ => (.ok (.opening b), ⟨position + 1, cs⟩)
  | none, some b => (.ok (.closing b), ⟨position + 1, cs⟩)
  | none, none =>
    if c = '\x27' then (.ok .quote, ⟨position + 1, cs⟩)
    else if c = '"' then stringBody position [] (position + 1) cs
    else if c = ':' then keyword ⟨position + 1, cs⟩
    else
      let (taken, next) := word ⟨position, c :: cs⟩
      if startsNumber (c :: cs) then (number position taken, next)
      else (.ok (.symbol (String.ofList taken)), next)

/-- Takes the next token or fault off the front; `none` when only blanks, commas and comments are
left. -/
def next? (c : Cursor) : Option (Except LexError Token × Cursor) :=
  match skip false c.position c.rest with
  | ⟨_, []⟩ => none
  | ⟨position, d :: cs⟩ => some (token position d cs)

/-- The next lexemes, at most `count` of them. -/
def lexemesUpTo : (count : Nat) → Cursor → List Lexeme
  | 0, _ => []
  | count + 1, c =>
    match c.next? with
    | none => []
    | some (result, next) => ⟨result, next.position⟩ :: lexemesUpTo count next

/-- The lexemes from a cursor to the end of the text. There are no more of them than
characters. -/
def lexemes (c : Cursor) : List Lexeme := lexemesUpTo c.rest.length c

end Cursor

/-- The lexemes of a text. -/
def lex (text : String) : List Lexeme := (Cursor.start text).lexemes

/-- The tokens of a text, or its first fault. -/
def tokenize (text : String) : Except LexError (List Token) :=
  (lex text).mapM Lexeme.result

end SmallLisp
