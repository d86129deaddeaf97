import SmallLisp.Value

/-!
# Hashing of values

A hash table finds a key by the number that a hasher makes of what the key writes into it. A list and a vector
write alike. The entries of a map are hashed each by itself and the numbers added up, so that the order of the
entries does not matter. Functions, namespaces and vars write where they are kept, and symbols the handles under
which their texts are kept.
-/

namespace SmallLisp

/-- One thing that is written into a hasher. -/
inductive HashWrite where
  | byte (n : UInt8)
  | handle (n : UInt32)
  | int (n : Int64)
  | word (n : UInt64)
  | size (n : UInt64)
  | text (s : String)
deriving DecidableEq

/-- What hashing takes from a run of the program. -/
structure Hashing where
  /-- The handle under which a text is kept. -/
  handleOf : String → UInt32
  /-- Where a function is kept. -/
  functionAt : Nat → UInt64
  /-- Where a namespace is kept. -/
  namespaceAt : Nat → UInt64
  /-- Where a var is kept. -/
  varAt : Nat → UInt64
  /-- The number that a hasher makes of what has been written into it. -/
  finish : List HashWrite → UInt64

namespace Hashing

variable (H : Hashing)

/-- What a truth value writes. -/
def boolWrites (b : Bool) : List HashWrite := [.byte (if b then 1 else 0)]

/-- What a symbol writes. -/
def symbolWrites (s : Symbol) : List HashWrite := [.handle (H.handleOf s.ns), .handle (H.handleOf s.name)]

mutual

/-- What a value writes into a hasher. -/
def writes : Value → List HashWrite
  | .nil => [.byte 0]
  | .bool b => boolWrites b
  | .int n => [.int n]
  | .float x => [.word x.toBits]
  | .str _ text => [.text text]
  | .symbol s => H.symbolWrites s
  | .keyword k => H.symbolWrites k.sym ++ boolWrites k.resolved
  | .list _ items => .size (.ofNat items.length) :: writesAll items
  | .vector _ items => .size (.ofNat items.length) :: writesAll items
  | .map _ entries => [.size (.ofNat entries.length), .word (combined entries)]
  | .native f => [.text f.name]
  | .function f => [.size (H.functionAt f.id)]
  | .ns n => [.size (H.namespaceAt n.id)]
  | .var v => [.size (H.varAt v.id)]

/-- What values write one after the other. -/
def writesAll : List Value → List HashWrite
  | [] => []
  | v :: vs => writes v ++ writesAll vs

/-- The sum of the numbers of entries. -/
def combined : List (Value × Value) → UInt64
  | [] => 0
  | (k, v) :: entries => H.finish (writes k ++ writes v) + combined entries

end

end Hashing

end SmallLisp
