import SmallLisp.Action

/-!
# Scopes

Analysis goes into scopes and comes out of them again. It works on the world and on the stack of the
scopes that are open. A scope is opened around a part of the analysis and closed after it, whether
that part succeeds or not (`Analysis.within`); the names of the innermost scope can grow while it is
open (`Analysis.declare`).
-/

namespace SmallLisp

/-- The names of a scope. -/
abbrev Scope := List Symbol

/-- What analysis works on. -/
structure Desk where
  /-- The world. -/
  world : World
  /-- The open scopes, the innermost first. -/
  scopes : List Scope

/-- A computation in a world and in open scopes. -/
abbrev Analysis := EStateM Halt Desk

namespace Analysis

/-- Does an action, which has nothing to do with scopes. -/
def act {α : Type} (a : Action α) : Analysis α := fun d =>
  match a d.world with
  | .ok x w => .ok x { d with world := w }
  | .error h w => .error h { d with world := w }

/-- Fails with a fault of analysis. -/
def fail {α : Type} (fault : AnalysisFault) : Analysis α := act (Action.failAnalysis fault)

/-- Whether a symbol is a local name: it has no namespace part, and an open scope has it. -/
def isLocal (s : Symbol) : Analysis Bool := fun d =>
  .ok (!s.isQualified && d.scopes.any (·.contains s)) d

/-- Adds a name to the innermost scope, if one is open. -/
def declare (s : Symbol) : Analysis Unit := fun d =>
  match d.scopes with
  | [] => .ok () d
  | names :: outer => .ok () { d with scopes := (s :: names) :: outer }

/-- Does a part of the analysis in a scope of its own. -/
def within {α : Type} (names : Scope) (part : Analysis α) : Analysis α := fun d =>
  match part { d with scopes := names :: d.scopes } with
  | .ok x d' => .ok x { d' with scopes := d'.scopes.tail }
  | .error h d' => .error h { d' with scopes := d'.scopes.tail }

end Analysis

end SmallLisp
