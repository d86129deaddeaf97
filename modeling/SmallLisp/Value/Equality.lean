import SmallLisp.Value

/-!
# Equality of values

Values of one kind are equal when their contents are; a list and a vector are compared element by
element as if they were of one kind. Floats are compared by their bits. Functions, namespaces and
vars are equal only to themselves. Two maps are equal when their entries can be paired off, each with
one that is equal to it; as the keys of a map differ, the order of the entries does not matter.

`lookup` and `insert` treat the entries of a map by this equality.
-/

namespace SmallLisp.Value

mutual

/-- Whether two values are equal. -/
def equal : Value → Value → Bool
  | nil, nil => true
  | bool a, bool b => a == b
  | int a, int b => a == b
  | float a, float b => a.toBits == b.toBits
  | str _ a, str _ b => a == b
  | symbol a, symbol b => a == b
  | keyword a, keyword b => a.sym == b.sym && a.resolved == b.resolved
  | list _ as, list _ bs => equalItems as bs
  | list _ as, vector _ bs => equalItems as bs
  | vector _ as, list _ bs => equalItems as bs
  | vector _ as, vector _ bs => equalItems as bs
  | map _ as, map _ bs => equalEntries as bs
  | native a, native b => a == b
  | function a, function b => a.id == b.id
  | ns a, ns b => a.id == b.id
  | var a, var b => a.id == b.id
  | _, _ => false

/-- Whether two sequences are equal element by element. -/
def equalItems : List Value → List Value → Bool
  | [], [] => true
  | a :: as, b :: bs => equal a b && equalItems as bs
  | _, _ => false

/-- Whether the entries of two lists can be paired off, each with one that is equal to it. -/
def equalEntries : List (Value × Value) → List (Value × Value) → Bool
  | [], bs => bs.isEmpty
  | (k, v) :: as, bs =>
    match bs.findIdx? fun b => equal k b.1 && equal v b.2 with
    | some i => equalEntries as (bs.eraseIdx i)
    | none => false

end

/-- The value that the entries hold under a key. -/
def lookup (key : Value) : List (Value × Value) → Option Value
  | [] => none
  | (k, v) :: entries => if equal k key then some v else lookup key entries

/-- Enters a value under a key; an entry whose key is equal is replaced, key and value, where it
stands. -/
def insert (key value : Value) : List (Value × Value) → List (Value × Value)
  | [] => [(key, value)]
  | (k, v) :: entries =>
    if equal k key then (key, value) :: entries else (k, v) :: insert key value entries

/-- The entries that result from entering pairs one after the other. -/
def entriesOf (pairs : List (Value × Value)) : List (Value × Value) :=
  pairs.foldl (fun entries (k, v) => insert k v entries) []

/-- The elements of a list taken two at a time; an odd one at the end is left out. -/
def pairUp : List Value → List (Value × Value)
  | k :: v :: rest => (k, v) :: pairUp rest
  | _ => []

/-- What a collection holds under a key: a map by equality of keys, a vector by position. -/
def lookupIn (collection key : Value) : Option Value :=
  match collection, key with
  | map _ entries, _ => lookup key entries
  | vector _ items, int n => if 0 ≤ n.toInt then items[n.toInt.toNat]? else none
  | _, _ => none

end SmallLisp.Value
