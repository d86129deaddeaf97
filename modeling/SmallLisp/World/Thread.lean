import SmallLisp.World.Registry

/-!
# The current namespace of a thread

A thread knows its current namespace through a var, which it gets when it first uses a registry: a
var of its own, entered in no table and bound to the core namespace. Symbols without a namespace
part are looked up in the current namespace, and only there.
-/

namespace SmallLisp

/-- The symbol of the var that holds the current namespace. -/
def currentSymbol : Symbol := coreSymbol "*ns*"

/-- The symbol of the var that holds the switching function. -/
def switchSymbol : Symbol := coreSymbol Native.inNs.name

/-- Gives a state to a thread. -/
def Registry.addThread (t : ThreadId) (state : ThreadState) (r : Registry) : Registry :=
  { r with threads := (t, state) :: r.threads }

/-- The current namespace that a thread state stands for. -/
def ThreadState.currentIn (state : ThreadState) (w : World) : Except EvalFault Namespace :=
  match w.root state.current with
  | some (.ns n) => .ok n
  | some value => .error (.currentNotNamespace state.current value)
  | none => .error (.currentUnbound state.current)

namespace World

/-- Makes a var that stands in no table. -/
def newPrivateVar (w : World) (owner : Namespace) (name : Symbol) (root : Option Value) :
    Var × World :=
  (⟨w.cells.size, name⟩, { w with cells := w.cells.push ⟨owner, root, none⟩ })

/-- The state of a thread that begins to use a registry by itself. -/
def defaultThreadState (w : World) (r : RegistryId) : ThreadState × World :=
  let (core, w) := w.internCore r
  let (current, w) := w.newPrivateVar core currentSymbol (some (.ns core))
  let (switch, w) := w.internVarIn core switchSymbol
  (⟨current, switch⟩, w)

/-- The state of the running thread, if it has used the registry before. -/
def threadState? (w : World) (here : Site) : Option ThreadState :=
  (w.registry here.registry).threads.lookup here.thread

/-- The state of the running thread, which begins as `first` on its first use of the registry. -/
def threadStateFrom (w : World) (here : Site) (first : ThreadState) : ThreadState × World :=
  match w.threadState? here with
  | some state => (state, w)
  | none => (first, w.modifyRegistry here.registry (·.addThread here.thread first))

/-- The state of the running thread, made by default on its first use of the registry. -/
def threadState (w : World) (here : Site) : ThreadState × World :=
  match w.threadState? here with
  | some state => (state, w)
  | none =>
    let (first, w) := w.defaultThreadState here.registry
    (first, w.modifyRegistry here.registry (·.addThread here.thread first))

/-- The current namespace of the running thread. -/
def currentNamespace (w : World) (here : Site) : Except EvalFault Namespace × World :=
  let (state, w) := w.threadState here
  (state.currentIn w, w)

/-- Makes a namespace current for the running thread; the namespace is made if it is new. -/
def switchNamespace (w : World) (here : Site) (name : String) : Namespace × World :=
  let (n, w) := w.internNamespace here.registry name
  let (state, w) := w.threadState here
  (n, w.setRoot state.current (.ns n))

/-- The symbol with the current namespace as its namespace part, if it has none yet. -/
def qualify (w : World) (here : Site) (s : Symbol) : Except EvalFault Symbol × World :=
  if s.isQualified then (.ok s, w)
  else
    let (current, w) := w.currentNamespace here
    (current.map fun n => s.inNamespace n.name, w)

/-- The var that a symbol names: in the namespace of its namespace part, or in the current
namespace if it has none. -/
def findVar (w : World) (here : Site) (s : Symbol) : Except EvalFault (Option Var) × World :=
  if s.isQualified then
    (.ok ((w.findNamespace? here.registry s.ns).bind (w.findVarIn? · s)), w)
  else
    let (current, w) := w.currentNamespace here
    (current.map fun n => w.findVarIn? n (s.inNamespace n.name), w)

/-- The keyword that a reader finds written with one colon, or with two if `auto` is set: then its
namespace part is the current namespace. -/
def readKeyword (w : World) (here : Site) (s : Symbol) (auto : Bool) :
    Except Error Keyword × World :=
  if !auto then
    let (k, w) := w.internKeyword here.registry s
    (.ok k, w)
  else if s.isQualified then (.error .aliasedKeyword, w)
  else
    match w.currentNamespace here with
    | (.ok n, w) =>
      let (k, w) := w.internKeyword here.registry (s.inNamespace n.name)
      (.ok k, w)
    | (.error fault, w) => (.error (.eval fault), w)

end World

end SmallLisp
