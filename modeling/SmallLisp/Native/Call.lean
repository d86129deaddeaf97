import SmallLisp.Number
import SmallLisp.Output
import SmallLisp.Value.Sharing
import SmallLisp.World.Thread

/-!
# Calling native functions

What each native function does with its arguments. Two of them expand macro calls, for which they
are handed the two kinds of expansion.
-/

namespace SmallLisp

/-- The two kinds of expansion: of the outermost call once, and until nothing is left to expand. -/
structure Expander where
  /-- Expands once. -/
  once : Value → Action Value
  /-- Expands until the form settles. -/
  fully : Value → Action Value

namespace Native

/-- The argument of a native that takes one. -/
def one (f : Native) : List Value → Action Value
  | [a] => pure a
  | args => Action.failEval (.nativeArity f 1 args.length)

/-- The arguments of a native that takes two. -/
def two (f : Native) : List Value → Action (Value × Value)
  | [a, b] => pure (a, b)
  | args => Action.failEval (.nativeArity f 2 args.length)

/-- The value of a computation that may find a fault. -/
def pureResult : Except EvalFault Value → Action Value
  | .ok v => pure v
  | .error fault => Action.failEval fault

/-- The elements of an argument that has to be a sequence. -/
def sequence (f : Native) (v : Value) : Action (List Value) := do
  match ← v.elements with
  | some items => pure items
  | none => Action.failEval (.noSequence f v)

/-- The text of a string, a symbol or a keyword. -/
def nameText (f : Native) : Value → Except EvalFault String
  | .str _ s => .ok s
  | .symbol s => .ok s.text
  | .keyword k => .ok k.sym.text
  | v => .error (.notNamed f v)

/-- The symbol that one or two name-like arguments stand for: a text to be split at its slash, or a
namespace part and a name. -/
def symbolOf (f : Native) : List Value → Except EvalFault Symbol
  | [name] => do return Symbol.parse (← nameText f name)
  | [ns, name] => do return ⟨← nameText f ns, ← nameText f name⟩
  | _ => .error (.nativeArityIn f "1 or 2 arguments")

/-- The elements of a value as a new list, or nil if there are none. -/
def listOrNil (f : Native) (v : Value) : Action Value := do
  match ← sequence f v with
  | [] => pure .nil
  | items => Action.newList items

/-- How many elements a value has. -/
def size (v : Value) : Action Nat :=
  match v with
  | .map _ entries => pure entries.length
  | .vector _ items => pure items.length
  | .list _ items => pure items.length
  | .str _ text => pure text.length
  | v => do return (← sequence count v).length

/-- The value under a key of a collection, with a default if one is given. -/
def getFrom : List Value → Action Value
  | [collection, key] => pure ((Value.lookupIn collection key).getD .nil)
  | [collection, key, default] => pure ((Value.lookupIn collection key).getD default)
  | args => Action.failEval (.getArity args.length)

/-- A new symbol that starts with the given text. -/
def freshSymbol (stem : String) : Action Value := do
  return .symbol (Symbol.bare (← Action.update (·.uniqueName stem)))

/-- The text that nil and other values contribute to a joined string. -/
def joined : Value → String
  | .nil => ""
  | v => v.display

/-- Calls a native function. -/
def call (expander : Expander) (here : Site) (f : Native) (args : List Value) : Action Value :=
  match f with
  | inNs => do
    match ← one f args with
    | .symbol s => do
      let _ ← Action.update (·.switchNamespace here s.name)
      pure .nil
    | v => Action.failEval (.notSymbol f v)
  | assert =>
    if (args.head?.map Value.isTruthy).getD false then pure .nil
    else Action.fail .assertionFailed
  | seq => do
    match ← one f args with
    | .list id (item :: items) => pure (.list id (item :: items))
    | v => listOrNil f v
  | freshSeq => do listOrNil f (← one f args)
  | add => pureResult (Number.sum args)
  | subtract => pureResult (Number.difference args)
  | multiply => pureResult (Number.product args)
  | divide => pureResult (Number.quotient args)
  | equal =>
    if args.isEmpty then Action.failEval (.nativeArityIn f "at least 1 argument")
    else pure (.bool (chained Value.agrees args))
  | less => pureResult (Number.ordered f (· == .lt) args)
  | greater => pureResult (Number.ordered f (· == .gt) args)
  | atMost => pureResult (Number.ordered f (· != .gt) args)
  | atLeast => pureResult (Number.ordered f (· != .lt) args)
  | not => do return .bool (!(← one f args).isTruthy)
  | isNil => do
    match ← one f args with
    | .nil => pure (.bool true)
    | _ => pure (.bool false)
  | identical => do
    let (a, b) ← two f args
    pure (.bool (a.identical b))
  | list => Action.newList args
  | cons => do
    let (item, tail) ← two f args
    Action.newList (item :: (← sequence f tail))
  | first => do return ((← sequence f (← one f args)).head?).getD .nil
  | rest => do Action.newList ((← sequence f (← one f args)).drop 1)
  | count => do return .int (Int64.ofNat (← size (← one f args)))
  | vector => Action.newVector args
  | hashMap =>
    if args.length % 2 = 0 then Action.newMap (Value.entriesOf (Value.pairUp args))
    else Action.failEval (.nativeArityIn f "an even number of arguments")
  | get => getFrom args
  | str => Action.newString (String.join (args.map joined))
  | keyword =>
    match symbolOf f args with
    | .ok s => do return .keyword (← Action.update (·.internKeyword here.registry s))
    | .error fault => Action.failEval fault
  | symbol => pureResult ((symbolOf f args).map .symbol)
  | print => do
    Action.print (displayAll args)
    pure .nil
  | println => do
    Action.print (displayAll args ++ "\n")
    pure .nil
  | gensym =>
    match args with
    | [] => freshSymbol "G__"
    | [stem] =>
      match nameText f stem with
      | .ok text => freshSymbol text
      | .error fault => Action.failEval fault
    | _ => Action.failEval (.nativeArityIn f "0 or 1 arguments")
  | expandOnce => do expander.once (← one f args)
  | expandFully => do expander.fully (← one f args)

end Native

end SmallLisp
