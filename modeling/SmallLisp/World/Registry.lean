import SmallLisp.Value.Equality
import SmallLisp.World

/-!
# Namespaces, vars and keywords of a registry

Interning a name gives the thing of that name, which is made if the registry does not have it yet;
so that the same name always gives the same thing. Finding a name makes nothing.
-/

namespace SmallLisp

/-- The name of the namespace of the language itself. -/
def coreName : String := "clojure.core"

/-- The symbol of a name in the core namespace. -/
def coreSymbol (name : String) : Symbol := ⟨coreName, name⟩

/-- Adds a keyword to the table of a registry. -/
def Registry.addKeyword (k : Keyword) (r : Registry) : Registry :=
  { r with keywords := (k.sym, k) :: r.keywords }

/-- Adds a namespace to the table of a registry. -/
def Registry.addNamespace (n : Namespace) (r : Registry) : Registry :=
  { r with namespaces := (n.name, n) :: r.namespaces }

namespace World

/-- The namespace of a name. -/
def findNamespace? (w : World) (r : RegistryId) (name : String) : Option Namespace :=
  (w.registry r).namespaces.lookup name

/-- The namespace of a name, made without vars if it is new. -/
def internNamespace (w : World) (r : RegistryId) (name : String) : Namespace × World :=
  match w.findNamespace? r name with
  | some n => (n, w)
  | none =>
    let n : Namespace := ⟨w.tables.size, name⟩
    (n, { w with tables := w.tables.push [] }.modifyRegistry r (·.addNamespace n))

/-- The namespace of the language itself. -/
def internCore (w : World) (r : RegistryId) : Namespace × World := w.internNamespace r coreName

/-- The var of a namespace under exactly this symbol. -/
def findVarIn? (w : World) (n : Namespace) (s : Symbol) : Option Var := (w.table n).lookup s

/-- The var of a namespace under exactly this symbol, made unbound if it is new. -/
def internVarIn (w : World) (n : Namespace) (s : Symbol) : Var × World :=
  match w.findVarIn? n s with
  | some v => (v, w)
  | none =>
    let v : Var := ⟨w.cells.size, s⟩
    (v, { w with
      cells := w.cells.push ⟨n, none, none⟩
      tables := w.tables.modify n.id ((s, v) :: ·) })

/-- The var that a symbol with a namespace part names, made unbound if it is new. The namespace has
to exist. -/
def internVar (w : World) (r : RegistryId) (s : Symbol) : Except InternFault Var × World :=
  if s.isQualified then
    match w.findNamespace? r s.ns with
    | some n => let (v, w) := w.internVarIn n s; (.ok v, w)
    | none => (.error (.missingNamespace s), w)
  else (.error (.unqualified s), w)

/-- The keyword of a name whose namespace part is final, made if it is new. -/
def internKeyword (w : World) (r : RegistryId) (s : Symbol) : Keyword × World :=
  match (w.registry r).keywords.lookup s with
  | some k => (k, w)
  | none => let k : Keyword := ⟨r, s, true⟩; (k, w.modifyRegistry r (·.addKeyword k))

/-- Whether the metadata of a var hold something true under a key. -/
def hasFlag (w : World) (v : Var) (key : Value) : Bool :=
  match w.metadata v with
  | some (.map _ entries) => ((Value.lookup key entries).map Value.isTruthy).getD false
  | _ => false

/-- The namespaces of a registry in the order of their names. -/
def namespacesByName (w : World) (r : RegistryId) : List Namespace :=
  ((w.registry r).namespaces.map (·.2)).mergeSort fun a b => a.name ≤ b.name

/-- The vars of a namespace in the order of their names. -/
def varsByName (w : World) (n : Namespace) : List Var :=
  ((w.table n).map (·.2)).mergeSort fun a b => a.name.text ≤ b.name.text

end World

end SmallLisp
