import SmallLisp.Evaluation
import SmallLisp.Scope

/-!
# Analysis

Analysis makes an expression of a form. A symbol without a namespace part is a local name if an open
scope has it; else it names a var of the current namespace, or failing that of the core namespace.
A list is a special form if its head says so, a macro call if its head names a macro, and a call of
a function otherwise; a local name is neither a special form nor a macro. Macro calls are expanded
until they settle, and what they settle at is analysed.

Definitions make their vars when they are analysed. Since macros run during analysis, and may stand
for further macro calls without end, analysis is given a depth like evaluation.
-/

namespace SmallLisp

/-- The analysis of a form. -/
abbrev Analyzer := Value → Analysis Expr

namespace Analysis

/-- The var that a symbol names, if need be in the core namespace. -/
def resolve (here : Site) (s : Symbol) : Action (Option Var) := do
  match ← Action.attempt .eval (·.findVar here s) with
  | some v => pure (some v)
  | none =>
    if s.isQualified then pure none
    else
      let core ← Action.update (·.internCore here.registry)
      Action.view (·.findVarIn? core (s.inNamespace coreName))

/-- A symbol that can be bound as a local name. -/
def localSymbol : Value → Action Symbol
  | .symbol s =>
    if s.isQualified then Action.failAnalysis (.qualifiedLocal s) else pure s
  | v => Action.failAnalysis (.localNotSymbol v)

/-- The meaning of a symbol. -/
def symbol (here : Site) (s : Symbol) : Analysis Expr := do
  if ← isLocal s then pure (.localName s)
  else
    match ← act (resolve here s) with
    | some v => pure (.root v)
    | none => fail (.unresolvedSymbol s)

/-- The var that a definition is for, made in the current namespace if it is new. -/
def target (here : Site) (form : SpecialForm) : Value → Action Var
  | .symbol s => do
    let current ← Action.attempt .eval (·.currentNamespace here)
    if s.isQualified && s.ns != current.name then Action.failAnalysis (.foreignTarget s)
    else
      let qualified ← Action.attempt .eval (·.qualify here s)
      Action.attempt .intern (·.internVar here.registry qualified)
  | v => Action.failAnalysis (.targetNotSymbol form v)

/-- The meaning of forms that are evaluated one after the other. A single one stands for itself. -/
def body (analyze : Analyzer) (forms : List Value) : Analysis Expr := do
  match ← Action.forEach analyze forms with
  | [e] => pure e
  | exprs => pure (.sequence exprs)

/-- The names that a parameter vector binds: those before an ampersand, and the one after it. -/
def params : List Value → Action (List Symbol × Option Symbol)
  | [] => pure ([], none)
  | v :: vs => do
    let s ← localSymbol v
    if s.name = "&" then
      match vs with
      | [] => Action.failAnalysis .nothingAfterRest
      | r :: more => do
        let rest ← localSymbol r
        if more.isEmpty then pure ([], some rest) else Action.failAnalysis .tooManyAfterRest
    else
      let (names, rest) ← params vs
      pure (s :: names, rest)

/-- The names and the body of a function, from its parameters on. -/
def functionFrom (analyze : Analyzer) (name : Option Symbol) :
    List Value → Analysis (Signature × Expr)
  | .vector _ paramForms :: forms => do
    let (names, rest) ← act (params paramForms)
    let e ← within (rest.toList ++ names ++ name.toList) (body analyze forms)
    pure (⟨name, names, rest⟩, e)
  | _ => fail .paramsNotVector

/-- The names and the body of a function, which may begin with a name of its own. -/
def function (analyze : Analyzer) : List Value → Analysis (Signature × Expr)
  | .symbol s :: rest => do
    let name ← act (localSymbol (.symbol s))
    functionFrom analyze (some name) rest
  | args => functionFrom analyze none args

/-- The bindings of the innermost scope, each in the scope of those before it. -/
def bindings (analyze : Analyzer) : List (Value × Value) → Analysis (List (Symbol × Expr))
  | [] => pure []
  | (name, init) :: rest => do
    let s ← act (localSymbol name)
    let e ← analyze init
    declare s
    let bound ← bindings analyze rest
    pure ((s, e) :: bound)

/-- A definition. A string between the name and the value is passed over. -/
def define (here : Site) (analyze : Analyzer) (args : List Value) : Analysis Expr := do
  match args with
  | [name] => return .define (← act (target here .define name)) none none
  | [name, init] | [name, .str _ _, init] => do
    let v ← act (target here .define name)
    return .define v (some (← analyze init)) none
  | _ => fail (.arity .define args.length)

/-- The names that every macro binds before its own parameters. -/
def macroParams : List Value := [.symbol (Symbol.bare "&form"), .symbol (Symbol.bare "&env")]

/-- The metadata that mark the var of a macro. -/
def markMetadata (here : Site) : Action Value := do
  Action.newMap [(← markKey here, .bool true)]

/-- A definition of a macro: a function of the whole call, an environment and the arguments of the
call, and metadata that mark the var. -/
def defineMacro (here : Site) (analyze : Analyzer) (args : List Value) : Analysis Expr := do
  match args with
  | name :: .vector id own :: forms => do
    let v ← act (target here .defineMacro name)
    let (signature, e) ← functionFrom analyze none (.vector id (macroParams ++ own) :: forms)
    let metadata ← act (markMetadata here)
    pure (.define v (some (.function signature e)) (some metadata))
  | _ :: v :: _ => fail (.macroParamsNotVector v)
  | _ => fail (.arity .defineMacro args.length)

/-- A choice. -/
def branch (analyze : Analyzer) (args : List Value) : Analysis Expr := do
  match args with
  | [test, yes] => do
    let test ← analyze test
    return .branch test (← analyze yes) none
  | [test, yes, no] => do
    let test ← analyze test
    let yes ← analyze yes
    return .branch test yes (some (← analyze no))
  | _ => fail (.arity .branch args.length)

/-- A body with local names. -/
def bind (analyze : Analyzer) (args : List Value) : Analysis Expr := do
  match args with
  | .vector _ forms :: rest =>
    if forms.length % 2 = 0 then
      within [] do
        let bound ← bindings analyze (Value.pairUp forms)
        return .bind bound (← body analyze rest)
    else fail .oddBindings
  | _ => fail .bindingsNotVector

/-- A var itself. -/
def theVar (here : Site) (args : List Value) : Action Expr := do
  match args with
  | [.symbol s] => do
    match ← resolve here s with
    | some v => pure (.theVar v)
    | none => Action.failAnalysis (.unresolvedVar s)
  | [v] => Action.failAnalysis (.varOfNonSymbol v)
  | _ => Action.failAnalysis (.arity .theVar args.length)

/-- The meaning of a special form. -/
def special (here : Site) (analyze : Analyzer) (form : SpecialForm) (args : List Value) :
    Analysis Expr := do
  match form with
  | .quote =>
    match args with
    | [v] => pure (.const v)
    | _ => fail (.arity .quote args.length)
  | .define => define here analyze args
  | .defineMacro => defineMacro here analyze args
  | .branch => branch analyze args
  | .sequence => body analyze args
  | .bind => bind analyze args
  | .function => do
    let (signature, e) ← function analyze args
    pure (.function signature e)
  | .theVar => act (theVar here args)

/-- What a list with a symbol at its head is. -/
inductive ListKind where
  /-- A special form. -/
  | special (form : SpecialForm)
  /-- A call of a macro. -/
  | macroCall (v : Var)
  /-- A call of a function. -/
  | call

/-- The special form that a symbol names where it is no local name. -/
def specialForm? (head : Symbol) : Option SpecialForm :=
  if head.isQualified then none else SpecialForm.ofName? head.name

/-- The macro that a symbol names where it is no local name. -/
def calledMacro? (here : Site) (head : Symbol) : Action (Option Var) := do
  match ← resolve here head with
  | none => pure none
  | some v =>
    let key ← markKey here
    if ← Action.view (·.hasFlag v key) then pure (some v) else pure none

/-- What a list with this head is where the head is no local name. -/
def globalKind (here : Site) (head : Symbol) : Action ListKind := do
  match specialForm? head with
  | some form => pure (.special form)
  | none =>
    match ← calledMacro? here head with
    | some v => pure (.macroCall v)
    | none => pure .call

/-- What a list with this head is. -/
def kind (here : Site) (head : Symbol) : Analysis ListKind := do
  if ← isLocal head then pure .call else act (globalKind here head)

/-- The call of a macro with its head replaced by the full name of the macro, so that expansion
finds it even where only the core namespace has it. -/
def namedCall (v : Var) (head : Symbol) (form : Value) (args : List Value) : Action Value :=
  if v.name = head then pure form else Action.newList (.symbol v.name :: args)

/-- The meaning of a call of a function. -/
def call (analyze : Analyzer) (head : Value) (args : List Value) : Analysis Expr := do
  let callee ← analyze head
  return .call callee (← Action.forEach analyze args)

/-- The meaning of an entry of a map. -/
def entry (analyze : Analyzer) (e : Value × Value) : Analysis (Expr × Expr) := do
  let k ← analyze e.1
  return (k, ← analyze e.2)

/-- The form that a call of a macro settles at. -/
def expansion (expand : Value → Action Value) (v : Var) (head : Symbol) (form : Value)
    (args : List Value) : Action Value := do
  expand (← namedCall v head form args)

/-- The meaning of a form, given how forms inside it are analysed and how macro calls are
expanded. -/
def form (here : Site) (analyze : Analyzer) (expand : Value → Action Value) (v : Value) :
    Analysis Expr := do
  match v with
  | .symbol s => symbol here s
  | .list _ (.symbol head :: args) => do
    match ← kind here head with
    | .special special => Analysis.special here analyze special args
    | .macroCall mac => do analyze (← act (expansion expand mac head v args))
    | .call => call analyze (.symbol head) args
  | .list _ (head :: args) => call analyze head args
  | .vector _ items => return .vector (← Action.forEach analyze items)
  | .map _ entries => return .map (← Action.forEach (entry analyze) entries)
  | _ => pure (.const v)

/-- The meaning of a form. -/
def meaning (here : Site) : (depth : Nat) → Analyzer
  | 0 => fun _ => act Action.outOfDepth
  | depth + 1 => form here (meaning here depth) (expandFully here depth)

/-- Does an analysis in the given scopes, for its result and the scopes that it leaves. -/
def inScopes {α : Type} (a : Analysis α) (scopes : List Scope) : Action (α × List Scope) := fun w =>
  match a ⟨w, scopes⟩ with
  | .ok x d => .ok (x, d.scopes) d.world
  | .error h d => .error h d.world

end Analysis

/-- The meaning of a form in the given scopes. -/
def analyze (here : Site) (depth : Nat) (scopes : List Scope) (form : Value) : Action Expr :=
  Prod.fst <$> (Analysis.meaning here depth form).inScopes scopes

end SmallLisp
