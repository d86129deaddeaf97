/-!
# Native functions

The functions that are part of the language itself rather than written in it, and their names.
A few belong to every registry; the rest are added as the standard library.
-/

namespace SmallLisp

/-- A native function. -/
inductive Native where
  | inNs | assert | seq | freshSeq
  | add | subtract | multiply | divide
  | equal | less | greater | atMost | atLeast | not | isNil | identical
  | list | cons | first | rest | count | vector | hashMap | get
  | str | keyword | symbol
  | print | println
  | gensym | expandOnce | expandFully
deriving DecidableEq

namespace Native

/-- The name of a native function, and of the var that holds it. -/
def name : Native → String
  | inNs => "in-ns"
  | assert => "assert"
  | seq => "seq"
  | freshSeq => "fresh-seq"
  | add => "+"
  | subtract => "-"
  | multiply => "*"
  | divide => "/"
  | equal => "="
  | less => "<"
  | greater => ">"
  | atMost => "<="
  | atLeast => ">="
  | not => "not"
  | isNil => "nil?"
  | identical => "identical?"
  | list => "list"
  | cons => "cons"
  | first => "first"
  | rest => "rest"
  | count => "count"
  | vector => "vector"
  | hashMap => "hash-map"
  | get => "get"
  | str => "str"
  | keyword => "keyword"
  | symbol => "symbol"
  | print => "print"
  | println => "println"
  | gensym => "gensym"
  | expandOnce => "macroexpand-1"
  | expandFully => "macroexpand"

/-- The natives that every registry has from its beginning. -/
def core : List Native := [inNs, assert, seq, freshSeq]

/-- The natives of the standard library. -/
def standardLibrary : List Native :=
  [add, subtract, multiply, divide, equal, less, greater, atMost, atLeast, not, isNil, identical,
    list, cons, first, rest, count, vector, hashMap, get, str, keyword, symbol, print, println,
    gensym, expandOnce, expandFully]

end Native

end SmallLisp
