import SmallLisp.Proofs.Action.Run

/-!
# The forms that analysis comes to

Analysis goes from a form to the forms inside it, one after the other, and stops at the first one that fails. What
it has come to are the form itself, at the desk where its analysis began, and what it has come to from there
(`visited`); the forms to which it goes directly are listed for each kind of form (`parts`). Nothing inside a
quotation is among them. That they are analysed is seen from this: if one of them fails, the whole analysis fails
with it (`fails_of_visited`). Of these forms some are definitions (`definedNames`), and some are calls of macros
that have functions, which expansion applies (`appliesMacro`).
-/

namespace SmallLisp.Analysis

/-- A form, and the desk at which its analysis begins. -/
abbrev Visit := Value × Desk

/-- What comes after a computation, which is nothing if it fails. -/
def following {α : Type} (a : Analysis α) (next : α → Desk → List Visit) (d : Desk) : List Visit :=
  match a d with
  | .ok x e => next x e
  | .error _ _ => []

section

variable (here : Site) (analyze : Analyzer)

/-- Forms that are analysed one after the other. -/
def inTurn : List Value → Desk → List Visit
  | [], _ => []
  | v :: vs, d => (v, d) :: following (analyze v) (fun _ => inTurn vs) d

/-- The body of a function, in the scope of its names. -/
def functionFromParts (name : Option Symbol) : List Value → Desk → List Visit
  | .vector _ paramForms :: forms => following (act (params paramForms)) fun (names, rest) d =>
    inTurn analyze forms { d with scopes := (rest.toList ++ names ++ name.toList) :: d.scopes }
  | _ => fun _ => []

/-- The body of a function that may begin with a name of its own. -/
def functionParts : List Value → Desk → List Visit
  | .symbol s :: rest => following (act (localSymbol (.symbol s))) fun name =>
    functionFromParts analyze (some name) rest
  | args => functionFromParts analyze none args

/-- The values of bindings. -/
def bindingParts : List (Value × Value) → Desk → List Visit
  | [] => fun _ => []
  | (name, init) :: rest => following (act (localSymbol name)) fun s d =>
    (init, d) :: following (do let _ ← analyze init; declare s) (fun _ => bindingParts rest) d

/-- The values of the bindings and then the body, all in a scope of their own. -/
def bindParts : List Value → Desk → List Visit
  | .vector _ forms :: rest => fun d =>
    if forms.length % 2 = 0 then
      let inner : Desk := { d with scopes := [] :: d.scopes }
      bindingParts analyze (Value.pairUp forms) inner ++
        following (bindings analyze (Value.pairUp forms)) (fun _ => inTurn analyze rest) inner
    else []
  | _ => fun _ => []

/-- The value of a definition. -/
def defineParts : List Value → Desk → List Visit
  | [name, init] | [name, .str _ _, init] => following (act (target here .define name)) fun _ d => [(init, d)]
  | _ => fun _ => []

/-- The body of the function of a macro. -/
def defineMacroParts : List Value → Desk → List Visit
  | name :: .vector id own :: forms => following (act (target here .defineMacro name)) fun _ =>
    functionFromParts analyze none (.vector id (macroParams ++ own) :: forms)
  | _ => fun _ => []

/-- The test and the alternatives of a choice. -/
def branchParts : List Value → Desk → List Visit
  | [test, yes] => inTurn analyze [test, yes]
  | [test, yes, no] => inTurn analyze [test, yes, no]
  | _ => fun _ => []

/-- What is inside a special form. -/
def specialParts (form : SpecialForm) (args : List Value) : Desk → List Visit :=
  match form with
  | .quote | .theVar => fun _ => []
  | .define => defineParts here args
  | .defineMacro => defineMacroParts here analyze args
  | .branch => branchParts analyze args
  | .sequence => inTurn analyze args
  | .bind => bindParts analyze args
  | .function => functionParts analyze args

/-- The forms to which analysis goes from a form directly. From a call of a macro it goes to what this settles
at. -/
def parts (expand : Value → Action Value) (v : Value) : Desk → List Visit :=
  match v with
  | .list _ (.symbol head :: args) => following (kind here head) fun
    | .special form => specialParts here analyze form args
    | .macroCall m => following (act (expansion expand m head v args)) fun settled d => [(settled, d)]
    | .call => inTurn analyze (.symbol head :: args)
  | .list _ items | .vector _ items => inTurn analyze items
  | .map _ entries => inTurn analyze (entries.flatMap fun e => [e.1, e.2])
  | _ => fun _ => []

end

variable (here : Site)

/-- The forms that the analysis of a form comes to, itself among them. -/
def visited : (depth : Nat) → Value → Desk → List Visit
  | 0, _, _ => []
  | depth + 1, v, d =>
    (v, d) :: (parts here (meaning here depth) (expandFully here depth) v d).flatMap fun p => visited depth p.1 p.2

/-- To what a form inside comes, the form comes. -/
theorem mem_visited {here : Site} {depth : Nat} {v : Value} {d : Desk} {p q : Visit}
    (hp : p ∈ parts here (meaning here depth) (expandFully here depth) v d) (hq : q ∈ visited here depth p.1 p.2) :
    q ∈ visited here (depth + 1) v d :=
  List.mem_cons_of_mem _ (List.mem_flatMap.mpr ⟨p, hp, hq⟩)

/-- The name that a form defines, if it is a definition. -/
def definedName? : Visit → Option Symbol
  | (.list _ (.symbol head :: .symbol s :: _), d) =>
    match kind here head d with
    | .ok (.special .define) _ | .ok (.special .defineMacro) _ => some s
    | _ => none
  | _ => none

/-- The names that are defined by the definitions to which the analysis of a form comes. -/
def definedNames (depth : Nat) (v : Value) (d : Desk) : List Symbol :=
  (visited here depth v d).filterMap (definedName? here)

/-- Whether a form is expanded by the function of a macro. -/
def expandsByFunction (form : Value) (w : World) : Bool :=
  match form with
  | .list _ (.symbol head :: _) =>
    match macroVar? here head w with
    | .ok (some m) u => (u.root m).isSome
    | _ => false
  | _ => false

/-- Whether a form is a call of a macro, for whose expansion a function is applied. -/
def appliesMacro : Visit → Bool
  | (v@(.list _ (.symbol head :: args)), d) =>
    match kind here head d with
    | .ok (.macroCall m) e =>
      match namedCall m head v args e.world with
      | .ok form u => expandsByFunction here form u
      | .error _ _ => false
    | _ => false
  | _ => false

/-- The analysis of a form applies no function of a macro. -/
def AppliesNoMacro (depth : Nat) (v : Value) (d : Desk) : Prop :=
  ∀ p ∈ visited here depth v d, appliesMacro here p = false

/-! ## These forms are analysed -/

/-- The computation fails like this. -/
def FailsWith {α : Type} (a : Analysis α) (d : Desk) (halt : Halt) : Prop := ∃ e, a d = .error halt e

section

variable {α β : Type} {here : Site} {an : Analyzer} {halt : Halt} {d : Desk} {p : Visit} {args : List Value}

namespace FailsWith

variable {a : Analysis α} {f : α → Analysis β}

theorem bind (h : FailsWith a d halt) : FailsWith (a >>= f) d halt :=
  let ⟨e, he⟩ := h
  ⟨e, run_bind_of_error he⟩

/-- What follows a part that succeeds may fail. -/
theorem after {x : α} {e : Desk} (hrun : a d = .ok x e) (h : FailsWith (f x) e halt) : FailsWith (a >>= f) d halt :=
  let ⟨e', he⟩ := h
  ⟨e', (run_bind_of_ok hrun).trans he⟩

theorem within {names : Scope} (h : FailsWith a { d with scopes := names :: d.scopes } halt) :
    FailsWith (within names a) d halt := by
  obtain ⟨e, he⟩ := h
  refine ⟨{ e with scopes := e.scopes.tail }, ?_⟩
  unfold Analysis.within
  rw [he]

end FailsWith

theorem mem_following {a : Analysis α} {next : α → Desk → List Visit} (h : p ∈ following a next d) :
    ∃ x e, a d = .ok x e ∧ p ∈ next x e := by
  unfold following at h
  split at h
  · exact ⟨_, _, ‹_›, h⟩
  · cases h

variable (hp : FailsWith (an p.1) p.2 halt)
include hp

theorem fails_cons {v : Value} {vs : List Value} {f : Expr → Analysis β} (h : p ∈ inTurn an (v :: vs) d)
    (hrest : ∀ x e, p ∈ inTurn an vs e → FailsWith (f x) e halt) : FailsWith (an v >>= f) d halt := by
  obtain rfl | h := List.mem_cons.mp h
  · exact hp.bind
  · obtain ⟨x, e, hx, h⟩ := mem_following h
    exact .after hx (hrest x e h)

theorem fails_inTurn {forms : List Value} (h : p ∈ inTurn an forms d) :
    FailsWith (Action.forEach an forms) d halt := by
  induction forms generalizing d with
  | nil => cases h
  | cons v vs ih => exact fails_cons hp h fun x e h => (ih h).bind

theorem fails_body {forms : List Value} (h : p ∈ inTurn an forms d) : FailsWith (body an forms) d halt :=
  (fails_inTurn hp h).bind

theorem fails_call {head : Value} (h : p ∈ inTurn an (head :: args) d) : FailsWith (call an head args) d halt :=
  fails_cons hp h fun _ _ h => (fails_inTurn hp h).bind

theorem fails_entries {entries : List (Value × Value)} (h : p ∈ inTurn an (entries.flatMap fun e => [e.1, e.2]) d) :
    FailsWith (Action.forEach (entry an) entries) d halt := by
  induction entries generalizing d with
  | nil => cases h
  | cons e entries ih =>
    simp only [Action.forEach, entry, bind_assoc, pure_bind]
    exact fails_cons hp h fun k d₁ h => fails_cons hp h fun v d₂ h => (ih h).bind

theorem fails_functionFrom {name : Option Symbol} (h : p ∈ functionFromParts an name args d) :
    FailsWith (functionFrom an name args) d halt := by
  unfold functionFromParts at h
  split at h
  · obtain ⟨found, e, hfound, h⟩ := mem_following h
    exact .after hfound (FailsWith.within (fails_body hp h)).bind
  · cases h

theorem fails_function (h : p ∈ functionParts an args d) : FailsWith (function an args) d halt := by
  unfold functionParts at h
  split at h
  · obtain ⟨name, e, hname, h⟩ := mem_following h
    exact .after hname (fails_functionFrom hp h)
  · rename_i hbare
    have hnameless : function an args = functionFrom an none args := by
      unfold function
      split
      · exact absurd rfl (hbare _ _)
      · rfl
    rw [hnameless]
    exact fails_functionFrom hp h

theorem fails_bindings {pairs : List (Value × Value)} (h : p ∈ bindingParts an pairs d) :
    FailsWith (bindings an pairs) d halt := by
  induction pairs generalizing d with
  | nil => cases h
  | cons pair pairs ih =>
    obtain ⟨name, init⟩ := pair
    obtain ⟨s, e, hs, h⟩ := mem_following h
    refine .after hs ?_
    obtain rfl | h := List.mem_cons.mp h
    · exact hp.bind
    · obtain ⟨x, e', hx, h⟩ := mem_following h
      obtain ⟨y, e'', hy, hdeclare⟩ := of_run_bind_ok hx
      exact .after hy (.after hdeclare (ih h).bind)

theorem fails_bind (h : p ∈ bindParts an args d) : FailsWith (Analysis.bind an args) d halt := by
  unfold bindParts at h
  split at h
  · split at h
    · rename_i heven
      simp only [Analysis.bind, if_pos heven]
      refine FailsWith.within ?_
      obtain h | h := List.mem_append.mp h
      · exact (fails_bindings hp h).bind
      · obtain ⟨bound, e, hbound, h⟩ := mem_following h
        exact .after hbound (fails_body hp h).bind
    · cases h
  · cases h

theorem fails_define (h : p ∈ defineParts here args d) : FailsWith (define here an args) d halt := by
  unfold defineParts at h
  split at h
  · obtain ⟨v, e, hv, h⟩ := mem_following h
    obtain rfl := List.mem_singleton.mp h
    exact .after hv hp.bind
  · obtain ⟨v, e, hv, h⟩ := mem_following h
    obtain rfl := List.mem_singleton.mp h
    exact .after hv hp.bind
  · cases h

theorem fails_defineMacro (h : p ∈ defineMacroParts here an args d) :
    FailsWith (defineMacro here an args) d halt := by
  unfold defineMacroParts at h
  split at h
  · obtain ⟨v, e, hv, h⟩ := mem_following h
    exact .after hv (fails_functionFrom hp h).bind
  · cases h

theorem fails_branch (h : p ∈ branchParts an args d) : FailsWith (branch an args) d halt := by
  unfold branchParts at h
  split at h
  · exact fails_cons hp h fun test d₁ h => fails_cons hp h nofun
  · exact fails_cons hp h fun test d₁ h => fails_cons hp h fun yes d₂ h => fails_cons hp h nofun
  · cases h

theorem fails_special {form : SpecialForm} (h : p ∈ specialParts here an form args d) :
    FailsWith (special here an form args) d halt := by
  cases form with
  | quote | theVar => cases h
  | define => exact fails_define hp h
  | defineMacro => exact fails_defineMacro hp h
  | branch => exact fails_branch hp h
  | sequence => exact fails_body hp h
  | bind => exact fails_bind hp h
  | function => exact (fails_function hp h).bind

theorem fails_form {expand : Value → Action Value} {v : Value} (h : p ∈ parts here an expand v d) :
    FailsWith (form here an expand v) d halt := by
  unfold form
  split
  · cases h
  · obtain ⟨kind, e, hkind, h⟩ := mem_following h
    refine .after hkind ?_
    cases kind with
    | special form => exact fails_special hp h
    | macroCall m =>
      obtain ⟨settled, e', hsettled, h⟩ := mem_following h
      obtain rfl := List.mem_singleton.mp h
      exact .after hsettled hp
    | call => exact fails_call hp h
  · rename_i head args hsymbol
    cases head with
    | symbol q => exact absurd rfl (hsymbol q)
    | _ => exact fails_call hp h
  · exact (fails_inTurn hp h).bind
  · exact (fails_entries hp h).bind
  · rename_i hlist hvector hmap
    cases v with
    | list id items =>
      cases items with
      | nil => cases h
      | cons head args => exact absurd rfl (hlist _ _ _)
    | vector id items => exact absurd rfl (hvector _ _)
    | map id entries => exact absurd rfl (hmap _ _)
    | _ => cases h

omit hp in
/-- What analysis comes to is analysed, in some depth: if that fails, the whole fails with it. -/
theorem fails_of_visited {depth : Nat} {v : Value} (h : p ∈ visited here depth v d) :
    ∃ k, ∀ halt, FailsWith (meaning here k p.1) p.2 halt → FailsWith (meaning here depth v) d halt := by
  induction depth generalizing v d with
  | zero => cases h
  | succ depth ih =>
    obtain rfl | h := List.mem_cons.mp h
    · exact ⟨depth + 1, fun _ => id⟩
    · obtain ⟨q, hq, h⟩ := List.mem_flatMap.mp h
      obtain ⟨k, hk⟩ := ih h
      exact ⟨k, fun halt hp => fails_form (hk halt hp) hq⟩

end

end SmallLisp.Analysis
