import SmallLisp.Session
import SmallLisp.Text.Backspace

/-!
# The read-eval-print loop

The loop takes lines. It gathers them until they hold no form that stops partway, evaluates what it
has gathered, and prints the value of the last form or the error. Lines that hold only blanks are
dropped. What is still gathered when the lines end is dropped as well.
-/

namespace SmallLisp

/-- The message of an action that has no value. -/
def Halt.message : Halt → String
  | error e => e.message
  | outOfDepth => "evaluation went too deep"

/-- The line that tells of an action that has no value. -/
def Halt.report (h : Halt) : String := "Error: " ++ h.message ++ "\n"

/-- The state of the loop. What it prints goes to the output of the world. -/
structure Repl where
  /-- The world, with what has been printed. -/
  world : World
  /-- The lines gathered so far, each with its end. -/
  gathered : String
  /-- The error lines so far. -/
  errors : String

namespace Repl

/-- The loop before its first line. -/
def start (w : World) : Repl :=
  ⟨w.print "loam REPL\nType expressions to evaluate, or Ctrl-D to quit\n\n", "", ""⟩

/-- Whether a text stops partway through a form. The forms that are read to find out are thrown
away, so the numbers of their objects are free again; the keywords stay. -/
def isIncomplete (w : World) (here : Site) (text : String) : Bool × World :=
  let (results, after) := Reader.results w here text
  let incomplete := results.any fun
    | .error e => e.isIncomplete
    | .ok _ => false
  (incomplete, { after with objects := w.objects })

/-- Evaluates a text and prints its value, or reports its error. -/
def evalPrint (here : Site) (depth : Nat) (text : String) (repl : Repl) : Repl :=
  match (Session.evalText here depth text).run repl.world with
  | .ok (some v) w => { repl with world := w.print (v.text ++ "\n") }
  | .ok none w => { repl with world := w }
  | .error halt w => { repl with world := w, errors := repl.errors ++ halt.report }

/-- Takes a line in. -/
def feed (here : Site) (depth : Nat) (repl : Repl) (line : String) : Repl :=
  let text := repl.gathered ++ line ++ "\n"
  let (incomplete, w) := isIncomplete repl.world here text
  if incomplete then { repl with world := w, gathered := text }
  else if Text.isAllBlank text then { repl with world := w, gathered := "" }
  else evalPrint here depth text { repl with world := w, gathered := "" }

/-- A line as it was meant, from its characters, the last one first. -/
def written (begun : List Char) : String := String.ofList (Text.takeBack begun.reverse)

/-- A line of which the last character came first, without a carriage return at its end. -/
def lineOf : List Char → String
  | '\r' :: cs => written cs
  | cs => written cs

/-- The lines of a text, of which the first has begun with the given characters, the last one
first. -/
def linesFrom (begun : List Char) : List Char → List String
  | [] => if begun.isEmpty then [] else [written begun]
  | c :: cs => if c = '\n' then lineOf begun :: linesFrom [] cs else linesFrom (c :: begun) cs

/-- The lines of a text: each without its end, which is a line feed, or a carriage return and a line
feed. What follows the last line feed is a line if it is not empty. In each line the backspaces have
taken back what they were typed for. -/
def linesOf (text : String) : List String := linesFrom [] text.toList

end Repl

end SmallLisp
