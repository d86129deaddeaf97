import SmallLisp.Native.Call
import SmallLisp.Value.Equality

/-!
# Evaluation

Expressions are evaluated in the scope of local names. Functions, natives, keywords, maps and vars
can be called. A macro is a var whose metadata say so and whose root is a function that takes the
whole call, nil in the place of an environment, and the arguments of the call, and gives the form
that stands for it.

A program may run forever, so evaluation is given a depth: the number of evaluations that may be
inside one another. Running out of it is kept apart from failing.
-/

namespace SmallLisp

/-- The value of a local name. -/
def Locals.value? (locals : Locals) (name : Symbol) : Option Value := locals.lookup name

/-- Whether a function can be called with this many arguments. -/
def Signature.accepts (s : Signature) (args : Nat) : Bool :=
  match s.rest with
  | some _ => s.params.length ≤ args
  | none => args == s.params.length

/-- The scope of a call of the function `f`: around it what the function was made in, then the
function's own name, the parameters, and the name for the further arguments, of which `further` is
the list. -/
def Closure.bindArgs (c : Closure) (f : Function) (further : Value) (args : List Value) : Locals :=
  let named :=
    match c.signature.name with
    | some name => (name, .function f) :: c.locals
    | none => c.locals
  let bound := (c.signature.params.zip args).reverse ++ named
  match c.signature.rest with
  | some rest => (rest, further) :: bound
  | none => bound

/-- The value of the name for further arguments: nil if there are none, else a new list. -/
def furtherArgs (s : Signature) (args : List Value) : Action Value :=
  match s.rest, args.drop s.params.length with
  | none, _ | _, [] => pure .nil
  | some _, extra => Action.newList extra

/-- The keyword under which metadata say that a var is a macro. -/
def markKey (here : Site) : Action Value := do
  return .keyword (← Action.update (·.internKeyword here.registry (Symbol.bare "macro")))

/-- The value that a keyword or a map has for a key, called with the collection or key first and
perhaps a default. -/
def lookupCall (f : Value) (find : Value → Option Value) : List Value → Action Value
  | [a] => pure ((find a).getD .nil)
  | [a, default] => pure ((find a).getD default)
  | args => Action.failEval (.wrongArgCount f args.length)

/-- Expands a form with `once` until it gives back the very form it was given. At most `limit`
expansions are applied; `left` is how many are still allowed. -/
def expandWithin (once : Value → Action Value) (whole : Value) (limit : Nat) :
    (left : Nat) → Value → Action Value
  | left, form => do
    let expanded ← once form
    if expanded.identical form then pure form
    else
      match left with
      | 0 => Action.fail (.expansionLimit whole limit)
      | left + 1 => expandWithin once whole limit left expanded

/-- Expands a form with `once` until it settles, within the limit of the registry. -/
def expandFullyWith (once : Value → Action Value) (here : Site) (form : Value) : Action Value := do
  let limit ← Action.view fun w => (w.registry here.registry).expansionLimit
  expandWithin once form limit limit form

/-- The var of the macro that a form is a call of, looked up by the head of the form alone. -/
def macroVar? (here : Site) (head : Symbol) : Action (Option Var) := do
  match ← Action.attempt .eval (·.findVar here head) with
  | none => pure none
  | some v =>
    if (← Action.view (·.metadata v)).isNone then pure none
    else
      let key ← markKey here
      if ← Action.view (·.hasFlag v key) then pure (some v) else pure none

/-- Expands a form once by calling macros with `apply`. A form that is not a call of a macro is
given back itself. -/
def expandOnceWith (apply : Value → List Value → Action Value) (here : Site) (form : Value) :
    Action Value :=
  match form with
  | .list _ (.symbol head :: args) => do
    match ← macroVar? here head with
    | none => pure form
    | some v =>
      match ← Action.view (·.root v) with
      | none => Action.failEval (.unboundMacro v)
      | some expander => apply expander (form :: .nil :: args)
  | _ => pure form

mutual

/-- Evaluates an expression in the scope of local names. -/
def evaluate (here : Site) : (depth : Nat) → Locals → Expr → Action Value
  | 0, _, _ => Action.outOfDepth
  | depth + 1, locals, e =>
    match e with
    | .const v => pure v
    | .root v => do
      match ← Action.view (·.root v) with
      | some value => pure value
      | none => Action.failEval (.unboundVar v)
    | .localName s =>
      match locals.value? s with
      | some value => pure value
      | none => Action.failEval (.unboundLocal s)
    | .define v value metadata => do
      match value with
      | some value =>
        let value ← evaluate here depth locals value
        Action.change (·.setRoot v value)
      | none => pure ()
      match metadata with
      | some metadata => Action.change (·.setMetadata v metadata)
      | none => pure ()
      pure (.var v)
    | .branch test yes no => do
      if (← evaluate here depth locals test).isTruthy then evaluate here depth locals yes
      else
        match no with
        | some no => evaluate here depth locals no
        | none => pure .nil
    | .sequence exprs => do
      let values ← Action.forEach (evaluate here depth locals) exprs
      pure (values.getLast?.getD .nil)
    | .bind bindings body => do
      let locals ← bindings.foldlM (fun scope (name, init) => do
        return (name, ← evaluate here depth scope init) :: scope) locals
      evaluate here depth locals body
    | .function signature body => do
      return .function (← Action.update (·.newFunction ⟨signature, body, locals⟩))
    | .call callee args => do
      let f ← evaluate here depth locals callee
      let args ← Action.forEach (evaluate here depth locals) args
      apply here depth f args
    | .vector items => do
      Action.newVector (← Action.forEach (evaluate here depth locals) items)
    | .map entries => do
      let pairs ← Action.forEach (fun (k, v) => do
        let k ← evaluate here depth locals k
        return (k, ← evaluate here depth locals v)) entries
      Action.newMap (Value.entriesOf pairs)
    | .theVar v => pure (.var v)

/-- Calls a value with evaluated arguments. -/
def apply (here : Site) : (depth : Nat) → Value → List Value → Action Value
  | 0, _, _ => Action.outOfDepth
  | depth + 1, f, args =>
    match f with
    | .native native =>
      let once := expandOnceWith (apply here depth) here
      Native.call ⟨once, expandFullyWith once here⟩ here native args
    | .function function => do
      let closure ← Action.view (·.closure function)
      if closure.signature.accepts args.length then
        let further ← furtherArgs closure.signature args
        evaluate here depth (closure.bindArgs function further args) closure.body
      else Action.failEval (.wrongArgCount f args.length)
    | .var v => do
      match ← Action.view (·.root v) with
      | some value => apply here depth value args
      | none => Action.failEval (.unboundCallee v)
    | .keyword _ => lookupCall f (fun collection => Value.lookupIn collection f) args
    | .map _ entries => lookupCall f (fun key => Value.lookup key entries) args
    | _ => Action.failEval (.notCallable f)

end

/-- Expands a form once. -/
def expandOnce (here : Site) (depth : Nat) (form : Value) : Action Value :=
  expandOnceWith (apply here depth) here form

/-- Expands a form until it settles, within the limit of the registry. -/
def expandFully (here : Site) (depth : Nat) (form : Value) : Action Value :=
  expandFullyWith (expandOnce here depth) here form

end SmallLisp
