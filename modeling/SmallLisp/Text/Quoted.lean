import SmallLisp.Text.Unprintable

/-!
# Quoted text

A text between double quotes. A backslash stands before a double quote and before a backslash; the
controls NUL, tab, line feed and carriage return have letters; a character without a shape of its
own is shown by its number in lower-case hexadecimal digits. An apostrophe stands for itself.
-/

namespace SmallLisp.Text

/-- The escape of a character by its number. -/
def numberEscape (c : Char) : List Char :=
  ['\\', 'u', '\x7b'] ++ Nat.toDigits 16 c.toNat ++ ['\x7d']

/-- How one character stands between the quotes. -/
def escape (c : Char) : List Char :=
  if c = '\x00' then ['\\', '0']
  else if c = '\t' then ['\\', 't']
  else if c = '\n' then ['\\', 'n']
  else if c = '\r' then ['\\', 'r']
  else if c = '"' then ['\\', '"']
  else if c = '\\' then ['\\', '\\']
  else if isUnprintable c then numberEscape c
  else [c]

/-- A text between double quotes. -/
def quote (text : String) : String :=
  "\"" ++ String.ofList (text.toList.flatMap escape) ++ "\""

end SmallLisp.Text
