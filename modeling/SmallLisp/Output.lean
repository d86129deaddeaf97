import SmallLisp.Action
import SmallLisp.World.Registry

/-!
# Printing

What the printing functions write. The elements of a sequence are written with a space between each
two, strings bare. A dump lists the namespaces of a registry by name, and under each its vars with
their roots.
-/

namespace SmallLisp

namespace Value

/-- The pairs of a map as vectors of two elements. -/
def entryVectors : List (Value × Value) → Action (List Value) :=
  Action.forEach fun (k, v) => Action.newVector [k, v]

/-- The elements of a value, if it is a sequence: nil has none, a map has its entries as vectors, a
string its characters as strings. Entries and characters are made anew. -/
def elements : Value → Action (Option (List Value))
  | nil => pure (some [])
  | list _ items => pure (some items)
  | vector _ items => pure (some items)
  | map _ entries => some <$> entryVectors entries
  | str _ text => some <$> Action.forEach (fun c => Action.newString c.toString) text.toList
  | _ => pure none

end Value

/-- Values as they are printed, with a space between each two. -/
def displayAll (items : List Value) : String := spaced (items.map Value.display)

namespace World

/-- The line of a var in a dump. -/
def dumpVar (w : World) (v : Var) : String :=
  "    " ++ v.text ++ " = " ++ ((w.root v).getD .nil).text ++ "\n"

/-- The lines of a namespace in a dump. -/
def dumpNamespace (w : World) (n : Namespace) : String :=
  "  " ++ n.name ++ "\n" ++ String.join ((w.varsByName n).map w.dumpVar)

/-- The listing of all namespaces and vars of a registry. -/
def dump (w : World) (r : RegistryId) : String :=
  "context dump\n" ++ String.join ((w.namespacesByName r).map w.dumpNamespace)

end World

namespace Action

/-- Prints a text. -/
def print (text : String) : Action Unit := change (·.print text)

/-- The elements of a value that has to be a sequence. -/
def elements (v : Value) : Action (List Value) := do
  match ← v.elements with
  | some items => pure items
  | none => fail (.noSequence v)

/-- The text of a value followed by the elements of a sequence. -/
def displayWith (v more : Value) : Action String := do return displayAll (v :: (← elements more))

/-- The text of the elements of a sequence, and the end of the line. -/
def displayLine (more : Value) : Action String := do return displayAll (← elements more) ++ "\n"

end Action

end SmallLisp
