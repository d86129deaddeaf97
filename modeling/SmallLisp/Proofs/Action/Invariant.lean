import SmallLisp.Proofs.Action.Lockstep

/-!
# Invariants of the world

A property of worlds that the elementary steps of the language keep is an `Invariant`. It is a lockstep
of the world with itself, so that whatever the language does keeps it, whether it succeeds or not
(`Invariant.of_ok`, `Invariant.of_error`).
-/

namespace SmallLisp

/-- The world that an action leaves behind, however it ends. -/
def Action.after {α : Type} (a : Action α) (w : World) : World :=
  match a w with
  | .ok _ w => w
  | .error _ w => w

/-- A property of worlds that the language keeps where it runs. -/
structure Invariant (here : Site) where
  /-- The property. -/
  Holds : World → Prop
  /-- Whether local names have to be bound. -/
  strict : Prop
  /-- What code may get hold of. -/
  mayUse : Ref → Prop
  root : ∀ ⦃w⦄, Holds w → ∀ v, mayUse (.var v) → ∀ x, w.root v = some x → x.Within mayUse
  covered : ∀ ⦃w⦄, Holds w → ∀ f, mayUse (.function f) → (w.closure f).Covered strict mayUse
  findVarIn : ∀ ⦃w⦄, Holds w → ∀ n s, mayUse (.ns n) →
    ∀ v, w.findVarIn? n s = some v → mayUse (.var v)
  findNamespace : ∀ ⦃w⦄, Holds w → ∀ name n,
    w.findNamespace? here.registry name = some n → mayUse (.ns n)
  newObject : ∀ ⦃w⦄, Holds w → Holds w.newObject.2
  uniqueName : ∀ ⦃w⦄, Holds w → ∀ stem, Holds (w.uniqueName stem).2
  print : ∀ ⦃w⦄, Holds w → ∀ text, Holds (w.print text)
  internKeyword : ∀ ⦃w⦄, Holds w → ∀ s, Holds (w.internKeyword here.registry s).2
  internNamespace : ∀ ⦃w⦄, Holds w → ∀ name, Holds (w.internNamespace here.registry name).2 ∧
    mayUse (.ns (w.internNamespace here.registry name).1)
  internVar : ∀ ⦃w⦄, Holds w → ∀ s, Holds (w.internVar here.registry s).2 ∧
    ∀ v, (w.internVar here.registry s).1 = .ok v → mayUse (.target v) ∧ mayUse (.var v)
  threadState : ∀ ⦃w⦄, Holds w → Holds (w.threadState here).2 ∧
    mayUse (.target (w.threadState here).1.current) ∧
      mayUse (.var (w.threadState here).1.current)
  newFunction : ∀ ⦃w⦄, Holds w → ∀ c, c.Covered strict mayUse → Holds (w.newFunction c).2 ∧
    mayUse (.function (w.newFunction c).1)
  setRoot : ∀ ⦃w⦄, Holds w → ∀ v x, mayUse (.target v) → x.Within mayUse → Holds (w.setRoot v x)
  setMetadata : ∀ ⦃w⦄, Holds w → ∀ v x, mayUse (.target v) → Holds (w.setMetadata v x)

namespace Invariant

variable {here : Site} (I : Invariant here) {α : Type} {P : α → Prop}

/-- The lockstep of a world that has the property with itself. -/
def lockstep : Lockstep here where
  Rel w u := w = u ∧ I.Holds w
  strict := I.strict
  reads := True
  mayUse := I.mayUse
  root := by rintro w _ ⟨rfl, h⟩ v hv; exact ⟨rfl, I.root h v hv⟩
  metadata := by rintro w _ ⟨rfl, _⟩ v; rfl
  closure := by rintro w _ ⟨rfl, h⟩ f hf; exact ⟨rfl, I.covered h f hf⟩
  limit := by rintro w _ ⟨rfl, _⟩; rfl
  findVarIn := by rintro w _ ⟨rfl, h⟩ n s hn; exact ⟨rfl, I.findVarIn h n s hn⟩
  findNamespace := by rintro w _ ⟨rfl, h⟩ name; exact ⟨rfl, I.findNamespace h name⟩
  newObject := by rintro w _ ⟨rfl, h⟩; exact ⟨trivial, rfl, rfl, I.newObject h⟩
  uniqueName := by rintro stem w _ ⟨rfl, h⟩; exact ⟨trivial, rfl, rfl, I.uniqueName h stem⟩
  print := by rintro text w _ ⟨rfl, h⟩; exact ⟨rfl, I.print h text⟩
  internKeyword := by rintro s w _ ⟨rfl, h⟩; exact ⟨trivial, rfl, rfl, I.internKeyword h s⟩
  internNamespace := by
    rintro name w _ ⟨rfl, h⟩
    exact ⟨(I.internNamespace h name).2, rfl, rfl, (I.internNamespace h name).1⟩
  internVar := by
    rintro s w _ ⟨rfl, h⟩
    exact ⟨(I.internVar h s).2, rfl, rfl, (I.internVar h s).1⟩
  threadState := by
    rintro w _ ⟨rfl, h⟩
    exact ⟨(I.threadState h).2, rfl, rfl, (I.threadState h).1⟩
  newFunction := by
    rintro c hc w _ ⟨rfl, h⟩
    exact ⟨(I.newFunction h c hc).2, rfl, rfl, (I.newFunction h c hc).1⟩
  setRoot := by rintro v x hv hx w _ ⟨rfl, h⟩; exact ⟨rfl, I.setRoot h v x hv hx⟩
  setMetadata := by rintro v x hv w _ ⟨rfl, h⟩; exact ⟨rfl, I.setMetadata h v x hv⟩

variable {I} {a b : Action α} {w v : World}

/-- An action that succeeds keeps the property. -/
theorem of_ok {x : α} (h : I.lockstep.Steps P a b) (hw : I.Holds w) (ha : a w = .ok x v) :
    P x ∧ I.Holds v := by
  have hab := h w w ⟨rfl, hw⟩
  rw [ha] at hab
  generalize b w = rb at hab
  obtain ⟨hp, hv⟩ | _ | _ := hab
  exact ⟨hp, hv.2⟩

/-- An action that does not succeed keeps the property as well. -/
theorem of_error {e : Halt} (h : I.lockstep.Steps P a b) (hw : I.Holds w) (ha : a w = .error e v) :
    I.lockstep.Permits e ∧ I.Holds v := by
  have hab := h w w ⟨rfl, hw⟩
  rw [ha] at hab
  generalize b w = rb at hab
  cases hab with
  | error h => exact ⟨h.1, h.2.2⟩
  | outOfDepth h => exact ⟨h.1, h.2.2⟩

/-- However an action ends, the property is kept. -/
theorem after (h : I.lockstep.Steps P a b) (hw : I.Holds w) : I.Holds (a.after w) := by
  unfold Action.after
  split
  · rename_i ha
    exact (of_ok h hw ha).2
  · rename_i ha
    exact (of_error h hw ha).2

end Invariant

/-- A property of worlds that is kept whatever code gets hold of. -/
structure Kept (here : Site) (strict : Prop) (Holds : World → Prop) : Prop where
  covered : ∀ ⦃w⦄, Holds w → ∀ f, (w.closure f).Covered strict fun _ => True
  newObject : ∀ ⦃w⦄, Holds w → Holds w.newObject.2
  uniqueName : ∀ ⦃w⦄, Holds w → ∀ stem, Holds (w.uniqueName stem).2
  print : ∀ ⦃w⦄, Holds w → ∀ text, Holds (w.print text)
  internKeyword : ∀ ⦃w⦄, Holds w → ∀ s, Holds (w.internKeyword here.registry s).2
  internNamespace : ∀ ⦃w⦄, Holds w → ∀ name, Holds (w.internNamespace here.registry name).2
  internVar : ∀ ⦃w⦄, Holds w → ∀ s, Holds (w.internVar here.registry s).2
  threadState : ∀ ⦃w⦄, Holds w → Holds (w.threadState here).2
  newFunction : ∀ ⦃w⦄, Holds w → ∀ c, c.Covered strict (fun _ => True) → Holds (w.newFunction c).2
  setRoot : ∀ ⦃w⦄, Holds w → ∀ v x, Holds (w.setRoot v x)
  setMetadata : ∀ ⦃w⦄, Holds w → ∀ v x, Holds (w.setMetadata v x)

namespace Kept

variable {here : Site} {strict : Prop} {Holds : World → Prop}

/-- Code may get hold of everything. -/
def invariant (h : Kept here strict Holds) : Invariant here where
  Holds := Holds
  strict := strict
  mayUse _ := True
  root _ _ _ _ _ _ _ _ := trivial
  covered _ hw f _ := h.covered hw f
  findVarIn _ _ _ _ _ _ _ := trivial
  findNamespace _ _ _ _ _ := trivial
  newObject _ hw := h.newObject hw
  uniqueName _ hw := h.uniqueName hw
  print _ hw := h.print hw
  internKeyword _ hw := h.internKeyword hw
  internNamespace _ hw name := ⟨h.internNamespace hw name, trivial⟩
  internVar _ hw s := ⟨h.internVar hw s, fun _ _ => ⟨trivial, trivial⟩⟩
  threadState _ hw := ⟨h.threadState hw, trivial, trivial⟩
  newFunction _ hw c hc := ⟨h.newFunction hw c hc, trivial⟩
  setRoot _ hw v x _ _ := h.setRoot hw v x
  setMetadata _ hw v x _ := h.setMetadata hw v x

variable (h : Kept here strict Holds)

theorem allows (v : Value) : h.invariant.lockstep.Allows v := fun _ _ => trivial

theorem allowsAll (vs : List Value) : h.invariant.lockstep.AllowsAll vs := fun v _ => h.allows v

end Kept

end SmallLisp
