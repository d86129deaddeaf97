import SmallLisp.Error
import SmallLisp.Expr

/-!
# The world

Everything that a program can change, and everything that values only refer to. A world holds
registries, which are independent environments for programs: each has its own namespaces, its own
keywords and, for each thread that uses it, a current namespace. The things themselves are numbered
through the whole world: the contents of vars, the var tables of namespaces and the functions made
so far, so that one registry can hold a reference into another.

A reference that is not of this world stands for an empty thing: an unbound var, a namespace without
vars, a registry without namespaces.
-/

namespace SmallLisp

/-- The number of a thread. -/
abbrev ThreadId := Nat

/-- Where code runs: on a thread, in a registry. -/
structure Site where
  /-- The registry whose namespaces and keywords the code uses. -/
  registry : RegistryId
  /-- The thread that runs it. -/
  thread : ThreadId

/-- The contents of a var. -/
structure Cell where
  /-- The namespace that the var was made for. -/
  owner : Namespace
  /-- The value, if the var is bound. -/
  root : Option Value
  /-- The metadata, if there are any. -/
  metadata : Option Value
deriving Inhabited

/-- The vars of a namespace under their names. -/
abbrev VarTable := List (Symbol × Var)

/-- What a function does when it is called: it binds its names, and evaluates its body in the scope
it was made in. -/
structure Closure where
  /-- The names that it binds. -/
  signature : Signature
  /-- The expression that is evaluated by a call. -/
  body : Expr
  /-- The local names around the function. -/
  locals : Locals
deriving Inhabited

/-- The vars through which a thread knows its current namespace and switches it. -/
structure ThreadState where
  /-- The var whose root is the current namespace. -/
  current : Var
  /-- The var of the switching function. -/
  switch : Var
deriving DecidableEq, Inhabited

/-- An independent environment. -/
structure Registry where
  /-- The namespaces under their names. -/
  namespaces : List (String × Namespace)
  /-- The keywords under their names. -/
  keywords : List (Symbol × Keyword)
  /-- The states of the threads that have used the registry. -/
  threads : List (ThreadId × ThreadState)
  /-- How many expansions a form may take. -/
  expansionLimit : Nat
deriving Inhabited

/-- All registries, and all that they refer to. -/
structure World where
  /-- The contents of the vars, by number. -/
  cells : Array Cell
  /-- The vars of the namespaces, by number. -/
  tables : Array VarTable
  /-- The functions, by number. -/
  closures : Array Closure
  /-- The registries, by number. -/
  registries : Array Registry
  /-- How many strings and collections have been made. -/
  objects : Nat
  /-- The number of the next generated name. -/
  nextName : Nat
  /-- What has been printed. -/
  output : String

namespace World

/-- The world before anything is made. -/
def empty : World := ⟨#[], #[], #[], #[], 0, 1, ""⟩

/-- The contents of a var. -/
def cell (w : World) (v : Var) : Cell := w.cells[v.id]?.getD default

/-- The value of a var, if it is bound. -/
def root (w : World) (v : Var) : Option Value := (w.cell v).root

/-- The metadata of a var, if there are any. -/
def metadata (w : World) (v : Var) : Option Value := (w.cell v).metadata

/-- Binds a var to a value. -/
def setRoot (w : World) (v : Var) (value : Value) : World :=
  { w with cells := w.cells.modify v.id fun c => { c with root := some value } }

/-- Gives metadata to a var. -/
def setMetadata (w : World) (v : Var) (metadata : Value) : World :=
  { w with cells := w.cells.modify v.id fun c => { c with metadata := some metadata } }

/-- The vars of a namespace. -/
def table (w : World) (n : Namespace) : VarTable := w.tables[n.id]?.getD []

/-- What a function does. -/
def closure (w : World) (f : Function) : Closure := w.closures[f.id]?.getD default

/-- Makes a function. -/
def newFunction (w : World) (closure : Closure) : Function × World :=
  (⟨w.closures.size, closure.signature⟩, { w with closures := w.closures.push closure })

/-- Takes the number of a new object. -/
def newObject (w : World) : ObjectId × World := (w.objects, { w with objects := w.objects + 1 })

/-- A text followed by a number that has not been used yet in this world. -/
def uniqueName (w : World) (stem : String) : String × World :=
  (stem ++ toString w.nextName, { w with nextName := w.nextName + 1 })

/-- Prints a text. -/
def print (w : World) (text : String) : World := { w with output := w.output ++ text }

/-- A registry. -/
def registry (w : World) (r : RegistryId) : Registry := w.registries[r]?.getD default

/-- Changes a registry. -/
def modifyRegistry (w : World) (r : RegistryId) (f : Registry → Registry) : World :=
  { w with registries := w.registries.modify r f }

end World

end SmallLisp
