import SmallLisp.World.Thread

/-!
# Copies of namespaces and registries

A copy of a namespace has a var of its own for each var, with the same root and metadata. A copy of
a registry has a copy of each namespace and the same keywords; each thread is in the copy of the
namespace that it is in, or in the core namespace if that one is not in the tables. A thread whose
current namespace is held by an entered var has the copy of that var; any other thread gets a var of
its own.
-/

namespace SmallLisp.World

/-- Makes a namespace whose vars are copies of those of another. -/
def copyNamespace (w : World) (n : Namespace) : Namespace × World :=
  let copy : Namespace := ⟨w.tables.size, n.name⟩
  let table := w.table n
  let vars := table.mapIdx fun i (s, v) => (s, ({ id := w.cells.size + i, name := v.name } : Var))
  let cells := table.map fun (_, v) => { w.cell v with owner := copy }
  (copy, { w with cells := w.cells ++ cells.toArray, tables := w.tables.push vars })

/-- Makes copies of the namespaces of a registry. -/
def copyNamespaces (w : World) : List (String × Namespace) → List (String × Namespace) × World
  | [] => ([], w)
  | (name, n) :: rest =>
    let (copy, w) := w.copyNamespace n
    let (copies, w) := copyNamespaces w rest
    ((name, copy) :: copies, w)

/-- The copy of a var that its owner has entered in its table; `copies` are the copied
namespaces. -/
def copyOfVar? (w : World) (copies : List (String × Namespace)) (v : Var) : Option Var :=
  let owner := (w.cell v).owner
  if (w.findVarIn? owner v.name).map Var.id = some v.id then
    (copies.lookup owner.name).bind (w.findVarIn? · v.name)
  else none

/-- The state, in a copied registry, of a thread that has the given state in the registry
itself. -/
def copyThreadState (w : World) (copies : List (String × Namespace)) (state : ThreadState) :
    ThreadState × World :=
  let core := copies.lookup coreName
  let target :=
    match state.currentIn w with
    | .ok n => (copies.lookup n.name).or core
    | .error _ => core
  let (current, w) :=
    match w.copyOfVar? copies state.current with
    | some v => (v, w)
    | none => w.newPrivateVar (core.getD default) state.current.name none
  let w :=
    match target with
    | some n => w.setRoot current (.ns n)
    | none => w
  (⟨current, (w.copyOfVar? copies state.switch).getD state.switch⟩, w)

/-- The states, in a copied registry, of the threads of the registry itself. -/
def copyThreads (w : World) (copies : List (String × Namespace)) :
    List (ThreadId × ThreadState) → List (ThreadId × ThreadState) × World
  | [] => ([], w)
  | (t, state) :: rest =>
    let (copy, w) := w.copyThreadState copies state
    let (states, w) := copyThreads w copies rest
    ((t, copy) :: states, w)

/-- Makes a copy of a registry. -/
def copyRegistry (w : World) (r : RegistryId) : RegistryId × World :=
  let source := w.registry r
  let (namespaces, w) := w.copyNamespaces source.namespaces
  let (threads, w) := w.copyThreads namespaces source.threads
  (w.registries.size, { w with
    registries := w.registries.push { source with namespaces, threads } })

end SmallLisp.World
