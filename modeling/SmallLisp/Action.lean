import SmallLisp.World

/-!
# Actions

An action changes the world and then has a value, fails with an error, or runs out of the depth that
it was given. What it did to the world before it failed stays done.
-/

namespace SmallLisp

/-- Why an action has no value. -/
inductive Halt where
  /-- It failed. -/
  | error (e : Error)
  /-- It went deeper than it was allowed to; it might have had a value with more depth. -/
  | outOfDepth

/-- A computation in a world. -/
abbrev Action := EStateM Halt World

namespace Action

/-- Fails with an error. -/
def fail {α : Type} (e : Error) : Action α := throw (.error e)

/-- Fails with a fault of evaluation. -/
def failEval {α : Type} (fault : EvalFault) : Action α := fail (.eval fault)

/-- Fails with a fault of analysis. -/
def failAnalysis {α : Type} (fault : AnalysisFault) : Action α := fail (.analysis fault)

/-- Stops for want of depth. -/
def outOfDepth {α : Type} : Action α := throw .outOfDepth

/-- Looks at the world. -/
def view {α : Type} (f : World → α) : Action α := fun w => .ok (f w) w

/-- Changes the world. -/
def change (f : World → World) : Action Unit := fun w => .ok () (f w)

/-- Changes the world for a value. -/
def update {α : Type} (f : World → α × World) : Action α := fun w => .ok (f w).1 (f w).2

/-- Changes the world for a value or a fault, which `wrap` makes an error. -/
def attempt {α ε : Type} (wrap : ε → Error) (f : World → Except ε α × World) : Action α := fun w =>
  match f w with
  | (.ok a, w) => .ok a w
  | (.error fault, w) => .error (.error (wrap fault)) w

/-- Does a computation for each element of a list, in order. -/
def forEach {m : Type → Type} [Monad m] {α β : Type} (f : α → m β) : List α → m (List β)
  | [] => pure []
  | a :: as => do
    let b ← f a
    let bs ← forEach f as
    pure (b :: bs)

/-- The number of a new object. -/
def newObject : Action ObjectId := update World.newObject

/-- A new list. -/
def newList (items : List Value) : Action Value := do return .list (← newObject) items

/-- A new vector. -/
def newVector (items : List Value) : Action Value := do return .vector (← newObject) items

/-- A new map of entries with different keys. -/
def newMap (entries : List (Value × Value)) : Action Value := do return .map (← newObject) entries

/-- A new string. -/
def newString (text : String) : Action Value := do return .str (← newObject) text

end Action

end SmallLisp
