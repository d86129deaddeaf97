import SmallLisp.Analysis

/-!
# Actions made of deeds

A thread does not do an action at once. It does one deed after the other (`Deed`): each of them changes the
world at once, and what comes next depends on the world that it has found. What the thread does is then a
`Course`, and other threads may do their deeds in between. Where they do not, the course comes to the action
as a whole (`Course.run`), which is made of deeds in this sense (`OfDeeds`).
-/

namespace SmallLisp

/-- What a thread does at once to the world, in a registry: it looks at the world, takes a number or a name that
has not been used, prints, looks up a name or enters it, gets its state, goes to a namespace, makes a function,
or binds or marks a var. -/
inductive Deed where
  | look
  | newObject
  | uniqueName (stem : String)
  | print (text : String)
  | internKeyword (s : Symbol)
  | readKeyword (s : Symbol) (auto : Bool)
  | internNamespace (name : String)
  | internVar (s : Symbol)
  | threadState
  | switchNamespace (name : String)
  | newFunction (c : Closure)
  | setRoot (v : Var) (value : Value)
  | setMetadata (v : Var) (metadata : Value)

/-- The world after a deed. -/
def Deed.effect (here : Site) (w : World) : Deed → World
  | look => w
  | newObject => w.newObject.2
  | uniqueName stem => (w.uniqueName stem).2
  | print text => w.print text
  | internKeyword s => (w.internKeyword here.registry s).2
  | readKeyword s auto => (w.readKeyword here s auto).2
  | internNamespace name => (w.internNamespace here.registry name).2
  | internVar s => (w.internVar here.registry s).2
  | threadState => (w.threadState here).2
  | switchNamespace name => (w.switchNamespace here name).2
  | newFunction c => (w.newFunction c).2
  | setRoot v value => w.setRoot v value
  | setMetadata v metadata => w.setMetadata v metadata

/-- Deeds one after the other, to a value or to a halt. What follows a deed depends on the world that it has
found. -/
inductive Course (α : Type) where
  | done (x : α)
  | halt (h : Halt)
  | step (deed : Deed) (next : World → Course α)

namespace Course

variable {here : Site} {α β : Type}

/-- A value, or a fault, which `wrap` makes an error. -/
def ofExcept {ε : Type} (wrap : ε → Error) : Except ε α → Course α
  | .ok x => done x
  | .error fault => halt (.error (wrap fault))

/-- The deeds one after the other, with nothing in between. -/
def run (here : Site) : Course α → Action α
  | done x => pure x
  | halt h => throw h
  | step deed next => fun w => (next w).run here (deed.effect here w)

/-- One course after the other. -/
def bind : Course α → (α → Course β) → Course β
  | done x, f => f x
  | halt h, _ => halt h
  | step deed next, f => step deed fun w => (next w).bind f

theorem run_bind (c : Course α) (f : α → Course β) :
    (c.bind f).run here = c.run here >>= fun x => (f x).run here := by
  induction c with
  | done x => rfl
  | halt h => rfl
  | step deed next ih =>
    funext w
    show ((next w).bind f).run here (deed.effect here w) = _
    rw [ih]
    rfl

end Course

/-- The action is what some course comes to if nothing comes in between. -/
def OfDeeds (here : Site) {α : Type} (a : Action α) : Prop := ∃ c : Course α, c.run here = a

namespace OfDeeds

variable {here : Site} {α β : Type}

theorem pure (x : α) : OfDeeds here (Pure.pure x) := ⟨.done x, rfl⟩

theorem throw (h : Halt) : OfDeeds here (throw h : Action α) := ⟨.halt h, rfl⟩

theorem fail (e : Error) : OfDeeds here (Action.fail e : Action α) := throw _

theorem failEval (fault : EvalFault) : OfDeeds here (Action.failEval fault : Action α) := throw _

theorem failAnalysis (fault : AnalysisFault) : OfDeeds here (Action.failAnalysis fault : Action α) := throw _

theorem bind {a : Action α} {f : α → Action β} (h : OfDeeds here a) (hf : ∀ x, OfDeeds here (f x)) :
    OfDeeds here (a >>= f) := by
  obtain ⟨c, rfl⟩ := h
  -- Each value that the first course comes to has a course of its own behind it.
  exact ⟨c.bind fun x => (hf x).choose,
    (c.run_bind _).trans (congrArg _ (funext fun x => (hf x).choose_spec))⟩

theorem map {a : Action α} {f : α → β} (h : OfDeeds here a) : OfDeeds here (f <$> a) := by
  rw [map_eq_pure_bind]
  exact h.bind fun x => pure (f x)

/-- A deed that gives a value. -/
theorem update {f : World → α × World} (deed : Deed) (h : ∀ w, (f w).2 = deed.effect here w) :
    OfDeeds here (Action.update f) := by
  refine ⟨.step deed fun w => .done (f w).1, funext fun w => ?_⟩
  show EStateM.Result.ok (f w).1 (deed.effect here w) = .ok (f w).1 (f w).2
  rw [h]

/-- A deed that gives a value or a fault. -/
theorem attempt {ε : Type} {wrap : ε → Error} {f : World → Except ε α × World} (deed : Deed)
    (h : ∀ w, (f w).2 = deed.effect here w) : OfDeeds here (Action.attempt wrap f) := by
  refine ⟨.step deed fun w => .ofExcept wrap (f w).1, funext fun w => ?_⟩
  show (Course.ofExcept wrap (f w).1).run here (deed.effect here w) = _
  unfold Action.attempt
  rw [← h]
  cases f w with
  | mk x u => cases x <;> rfl

theorem change {f : World → World} (deed : Deed) (h : ∀ w, f w = deed.effect here w) :
    OfDeeds here (Action.change f) := by
  refine ⟨.step deed fun _ => .done (), funext fun w => ?_⟩
  show EStateM.Result.ok () (deed.effect here w) = .ok () (f w)
  rw [h]

theorem view (f : World → α) : OfDeeds here (Action.view f) :=
  ⟨.step .look fun w => .done (f w), rfl⟩

theorem forEach {f : α → Action β} (h : ∀ x, OfDeeds here (f x)) (xs : List α) :
    OfDeeds here (Action.forEach f xs) := by
  induction xs with
  | nil => exact pure []
  | cons x xs ih => exact (h x).bind fun y => ih.bind fun ys => pure (y :: ys)

theorem foldlM {f : β → α → Action β} (h : ∀ y x, OfDeeds here (f y x)) (y : β) (xs : List α) :
    OfDeeds here (xs.foldlM f y) := by
  induction xs generalizing y with
  | nil => exact pure y
  | cons x xs ih =>
    rw [List.foldlM_cons]
    exact (h y x).bind fun y => ih y

/-! ## Elementary actions -/

theorem newObject : OfDeeds here Action.newObject := update .newObject fun _ => rfl

theorem newList (items : List Value) : OfDeeds here (Action.newList items) := newObject.bind fun _ => pure _

theorem newVector (items : List Value) : OfDeeds here (Action.newVector items) := newObject.bind fun _ => pure _

theorem newMap (entries : List (Value × Value)) : OfDeeds here (Action.newMap entries) :=
  newObject.bind fun _ => pure _

theorem newString (text : String) : OfDeeds here (Action.newString text) := newObject.bind fun _ => pure _

theorem internKeyword (s : Symbol) : OfDeeds here (Action.update (·.internKeyword here.registry s)) :=
  update (.internKeyword s) fun _ => rfl

theorem print (text : String) : OfDeeds here (Action.print text) := change (.print text) fun _ => rfl

/-- A symbol without a namespace part is looked up in the current namespace, which the thread asks its state
for. -/
theorem findVar (s : Symbol) : OfDeeds here (Action.attempt .eval (·.findVar here s)) := by
  cases hs : s.isQualified with
  | true =>
    refine attempt .look fun w => ?_
    unfold World.findVar
    rw [hs]
    rfl
  | false =>
    refine attempt .threadState fun w => ?_
    unfold World.findVar
    rw [hs]
    rfl

theorem qualify (s : Symbol) : OfDeeds here (Action.attempt .eval (·.qualify here s)) := by
  cases hs : s.isQualified with
  | true =>
    refine attempt .look fun w => ?_
    unfold World.qualify
    rw [hs]
    rfl
  | false =>
    refine attempt .threadState fun w => ?_
    unfold World.qualify
    rw [hs]
    rfl

end OfDeeds

end SmallLisp
