/-!
# Symbols

A symbol is a name with a namespace part, which is empty when the name stands alone. Its text is
the two parts joined by a slash, and `Symbol.parse` splits a text at its first slash, unless that
slash is the first or the last character: `/` and `ns/` are bare names, and `core//` is the name
`/` in `core`.
-/

namespace SmallLisp

/-- A namespace part and a name; the empty namespace part means that the name stands alone. -/
structure Symbol where
  /-- The namespace part. -/
  ns : String
  /-- The name. -/
  name : String
deriving DecidableEq, Inhabited

namespace Symbol

/-- The name alone. -/
def bare (name : String) : Symbol := ⟨"", name⟩

/-- Whether the symbol has a namespace part. -/
def isQualified (s : Symbol) : Bool := s.ns != ""

/-- The same name under another namespace part. -/
def inNamespace (s : Symbol) (ns : String) : Symbol := ⟨ns, s.name⟩

/-- The name of a symbol without its namespace part. -/
def withoutNamespace (s : Symbol) : Symbol := bare s.name

/-- The written form: the parts joined by a slash, or the name alone. -/
def text (s : Symbol) : String :=
  if s.ns = "" then s.name else s.ns ++ "/" ++ s.name

/-- Splits characters at the first slash that has characters on both sides of it; the slash that
decides is the first one, whatever stands around it. -/
def splitSlash (cs : List Char) : Option (List Char × List Char) :=
  match cs.span (· != '/') with
  | (c :: before, _ :: d :: after) => some (c :: before, d :: after)
  | _ => none

/-- The symbol that a text stands for. -/
def parse (text : String) : Symbol :=
  match splitSlash text.toList with
  | some (before, after) => ⟨String.ofList before, String.ofList after⟩
  | none => bare text

@[simp] theorem isQualified_bare (name : String) : (bare name).isQualified = false := by
  simp [bare, isQualified]

@[simp] theorem text_bare (name : String) : (bare name).text = name := by
  simp [bare, text]

end Symbol

end SmallLisp
