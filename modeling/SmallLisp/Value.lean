import SmallLisp.Native
import SmallLisp.Symbol

/-!
# Values

The values of the language, which are also the forms that programs are written in.

Strings and collections are objects: each carries the number that it was given when it was made, so
that two equal ones can be told apart. Vars, namespaces, functions and keywords are references to
things kept by the world; a reference carries what never changes about them, their names. Numbers,
symbols, booleans and nil have no identity beyond their value.
-/

namespace SmallLisp

/-- The number of an object. -/
abbrev ObjectId := Nat

/-- The number of a registry within a world. -/
abbrev RegistryId := Nat

/-- A reference to a namespace. -/
structure Namespace where
  /-- Which namespace it is. -/
  id : Nat
  /-- Its name. -/
  name : String
deriving DecidableEq, Inhabited

/-- A reference to a var. -/
structure Var where
  /-- Which var it is. -/
  id : Nat
  /-- Its name with its namespace part. -/
  name : Symbol
deriving DecidableEq, Inhabited

/-- A keyword. A registry makes at most one keyword of each name, and copies of a registry share
the keywords made before the copying, so a keyword is told by its name and by the registry that made
it. -/
structure Keyword where
  /-- The registry that made it. -/
  home : RegistryId
  /-- Its name. -/
  sym : Symbol
  /-- Whether its namespace part is final. -/
  resolved : Bool
deriving DecidableEq, Inhabited

/-- The names that a function binds when it is called. -/
structure Signature where
  /-- The name under which the function sees itself. -/
  name : Option Symbol
  /-- One name for each required argument. -/
  params : List Symbol
  /-- The name for the list of all further arguments, if they are allowed. -/
  rest : Option Symbol
deriving DecidableEq, Inhabited

/-- A reference to a function written in the language. -/
structure Function where
  /-- Which function it is. -/
  id : Nat
  /-- The names that it binds. -/
  signature : Signature
deriving DecidableEq, Inhabited

/-- A value, or a form. -/
inductive Value where
  | nil
  | bool (b : Bool)
  | int (n : Int64)
  | float (x : Float)
  | str (id : ObjectId) (text : String)
  | symbol (s : Symbol)
  | keyword (k : Keyword)
  | list (id : ObjectId) (items : List Value)
  | vector (id : ObjectId) (items : List Value)
  /-- The entries have different keys, the one entered first standing first. -/
  | map (id : ObjectId) (entries : List (Value × Value))
  | native (f : Native)
  | function (f : Function)
  | ns (n : Namespace)
  | var (v : Var)
deriving Inhabited

namespace Value

/-- Whether the value counts as true: everything but nil and false does. -/
def isTruthy : Value → Bool
  | nil | bool false => false
  | _ => true

/-- The name of the kind of value. -/
def typeName : Value → String
  | nil => "nil"
  | bool _ => "boolean"
  | int _ => "integer"
  | float _ => "float"
  | str _ _ => "string"
  | symbol _ => "symbol"
  | keyword _ => "keyword"
  | list _ _ => "list"
  | vector _ _ => "vector"
  | map _ _ => "map"
  | native _ | function _ => "function"
  | ns _ => "namespace"
  | var _ => "var"

/-- Whether two values are the same object, or equal values without identity. An empty vector has no
storage of its own and is never the same as anything, itself included. -/
def identical : Value → Value → Bool
  | nil, nil => true
  | bool a, bool b => a == b
  | int a, int b => a == b
  | float a, float b => a.toBits == b.toBits
  | symbol a, symbol b => a == b
  | str a _, str b _ => a == b
  | keyword a, keyword b => a == b
  | list a _, list b _ => a == b
  | vector a (_ :: _), vector b (_ :: _) => a == b
  | map a _, map b _ => a == b
  | native a, native b => a == b
  | function a, function b => a.id == b.id
  | ns a, ns b => a.id == b.id
  | var a, var b => a.id == b.id
  | _, _ => false

end Value

end SmallLisp
