import SmallLisp.Analysis
import SmallLisp.Prelude
import SmallLisp.Reader
import SmallLisp.World.Create

/-!
# Sessions

A text is read, analysed and evaluated one form after the other: each form is read only when those
before it have been evaluated, and the first error ends the text.
-/

namespace SmallLisp

/-- The files that can be read: what a path holds, or why it holds no text. -/
abbrev Files := String → Except FileFault String

namespace Session

/-- How deep evaluations may be inside one another, where nothing else is said. -/
def usualDepth : Nat := 10000000

/-- Where the evaluation of a text stands between two forms. -/
structure Progress where
  /-- The scopes that analysis has left open. -/
  scopes : List Scope
  /-- The value of the form before, if there is one. -/
  last : Option Value

/-- A text before its first form. -/
def Progress.start : Progress := ⟨[], none⟩

/-- Analyses and evaluates a form in the scopes that are open, for its value and the scopes that are
open after it. -/
def evalForm (here : Site) (depth : Nat) (scopes : List Scope) (form : Value) :
    Action (Value × List Scope) := do
  let (e, scopes) ← (Analysis.meaning here depth form).inScopes scopes
  return (← evaluate here depth [] e, scopes)

/-- Goes on with the next form of a text. -/
def evalNext (here : Site) (depth : Nat) (p : Progress) (form : Value) : Action Progress := do
  let (v, scopes) ← evalForm here depth p.scopes form
  return ⟨scopes, some v⟩

/-- Evaluates a text for the value of its last form, if it has any form. -/
def evalText (here : Site) (depth : Nat) (text : String) : Action (Option Value) :=
  Progress.last <$> Reader.fold here (evalNext here depth) text .start

/-- Evaluates a text for the values of all its forms. -/
def evalTextAll (here : Site) (depth : Nat) (text : String) : Action (List Value) :=
  (List.reverse ∘ Prod.fst) <$>
    Reader.fold here (fun (values, scopes) form => do
      let (v, scopes) ← evalForm here depth scopes form
      return (v :: values, scopes)) text ([], [])

/-- Reads a text without evaluating it. -/
def readText (here : Site) (text : String) : Action (List Value) :=
  List.reverse <$> Reader.fold here (fun forms form => pure (form :: forms)) text []

/-- Evaluates the text of a file. -/
def evalFile (files : Files) (here : Site) (depth : Nat) (path : String) :
    Action (Option Value) :=
  match files path with
  | .ok text => evalText here depth text
  | .error fault => Action.fail (.unreadableFile path fault)

/-- Evaluates the prelude: the file of the given path, or the prelude of the language. -/
def evalPrelude (files : Files) (here : Site) (depth : Nat) (path : Option String) :
    Action (Option Value) :=
  match path with
  | some path => evalFile files here depth path
  | none => evalText here depth preludeText

end Session

end SmallLisp
