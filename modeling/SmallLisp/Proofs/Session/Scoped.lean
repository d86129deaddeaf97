import SmallLisp.Proofs.Session.Reachable
import SmallLisp.Proofs.World.Functions

/-!
# Every local name is bound

Analysis and evaluation agree about scopes. Analysis under open scopes gives an expression that takes
local names of these scopes alone, and closes every scope that it opens, whatever the outcome. Every
function of a reachable world takes only names that are bound in each of its calls
(`reachable_scoped`). So no evaluation fails for want of a local name (`reachable_neverUnbound`).
-/

namespace SmallLisp

/-- The body of every function takes only names that are bound when it is called: those of the scope
it was made in, its own name, its parameters and the name for further arguments. -/
def World.Scoped (w : World) : Prop := ∀ c ∈ w.closures, ∀ s ∈ c.body.freeLocals, s ∈ c.names

/-- A computation does not end with the fault of an unbound local name. -/
def NeverUnbound {σ α : Type} (r : EStateM.Result Halt σ α) : Prop :=
  ∀ s w, r ≠ .error (.error (.eval (.unboundLocal s))) w

theorem Closure.covered_iff {c : Closure} :
    c.Covered True (fun _ => True) ↔ ∀ s ∈ c.body.freeLocals, s ∈ c.names :=
  ⟨fun h s hs => h.body.freeLocals s hs trivial,
    fun h => ⟨⟨fun s hs _ => h s hs, fun _ _ => trivial⟩, fun _ _ _ _ => trivial⟩⟩

namespace World.Scoped

variable {w u : World}

/-- The functions alone matter. -/
theorem of_closures (h : w.Scoped) (hc : u.closures = w.closures) : u.Scoped := by
  unfold World.Scoped
  rw [hc]
  exact h

theorem newFunction (h : w.Scoped) {c : Closure} (hc : c.Covered True fun _ => True) :
    (w.newFunction c).2.Scoped := by
  intro d hd
  obtain hd | rfl := Array.mem_push.mp hd
  · exact h d hd
  · exact Closure.covered_iff.mp hc

theorem closure (h : w.Scoped) (f : Function) : (w.closure f).Covered True fun _ => True := by
  refine Closure.covered_iff.mpr ?_
  unfold World.closure
  cases hf : w.closures[f.id]? with
  | none =>
    -- A function of another world stands for an empty closure.
    intro s (hs : s ∈ (default : Expr).freeLocals)
    simp [default, instInhabitedExpr.default, Expr.freeLocals] at hs
  | some c => exact h c (Array.mem_of_getElem? hf)

/-- Programs keep it. -/
theorem kept (here : Site) : Kept here True World.Scoped where
  covered _ h := h.closure
  newObject _ h := h.of_closures rfl
  uniqueName _ h _ := h.of_closures rfl
  print _ h _ := h.of_closures rfl
  internKeyword _ h _ := h.of_closures (by simp)
  internNamespace _ h _ := h.of_closures (by simp)
  internVar _ h _ := h.of_closures (by simp)
  threadState _ h := h.of_closures (by simp)
  newFunction _ h _ hc := h.newFunction hc
  setRoot _ h _ _ := h.of_closures rfl
  setMetadata _ h _ _ := h.of_closures rfl

/-- Functions all of whose names are bound, in a world beside itself. -/
abbrev alone (here : Site) : Lockstep here := (kept here).invariant.lockstep

/-- A strict lockstep permits no fault of an unbound local name. -/
theorem neverUnbound (hw : w.Scoped) (here : Site) {α : Type} {P : α → Prop} {a b : Action α}
    (h : (alone here).Steps P a b) : NeverUnbound (a w) :=
  fun s _ ha => (Invariant.of_error h hw ha).1.bound trivial s rfl

end World.Scoped

/-- In every reachable world all functions take only names that are bound in their calls. -/
theorem reachable_scoped {w : World} (h : Reachable w) : w.Scoped :=
  Kept.reachable World.Scoped.kept (fun _ hc => absurd hc (by simp [World.empty]))
    (fun hw _ _ => hw.of_closures (by simp)) (fun hw _ => hw.of_closures (by simp))
    (fun hw _ => hw.of_closures (by simp)) h

variable {w : World}

/-- Whatever the outcome of an analysis, the open scopes are those from before, and an expression that
results takes only names of these scopes. -/
theorem analysis_scoped (h : w.Scoped) (here : Site) (depth : Nat) (scopes : List Scope)
    (form : Value) :
    match Analysis.meaning here depth form ⟨w, scopes⟩ with
    | .ok e d => d.scopes = scopes ∧ ∀ s ∈ e.freeLocals, s ∈ scopes.flatten
    | .error _ d => d.scopes = scopes := by
  have hm := Lockstep.meaning (L := World.Scoped.alone here) (Nat.le_refl depth) scopes form
    ((World.Scoped.kept here).allows form) ⟨w, scopes⟩ ⟨w, scopes⟩ ⟨⟨rfl, h⟩, rfl, rfl⟩
  generalize Analysis.meaning here depth form ⟨w, scopes⟩ = r at hm
  cases hm with
  | ok h => exact ⟨h.2.2.1, fun s hs => h.1.freeLocals s hs trivial⟩
  | error h => exact h.2.2.1
  | outOfDepth h => exact h.2.2.1

/-- The world that an analysis leaves behind is reachable like the one before it. -/
theorem Reachable.meaning (h : Reachable w) (here : Site) (depth : Nat) (scopes : List Scope)
    (form : Value) :
    match Analysis.meaning here depth form ⟨w, scopes⟩ with
    | .ok _ d => Reachable d.world
    | .error _ d => Reachable d.world := by
  have ha := h.after (.analyze here depth scopes form)
  unfold World.after Action.after Analysis.inScopes at ha
  dsimp only at ha
  generalize Analysis.meaning here depth form ⟨w, scopes⟩ = r at ha ⊢
  cases r <;> exact ha

/-- An expression is evaluated without want of a local name where its names are bound. -/
theorem World.Scoped.evaluate (h : w.Scoped) (here : Site) (depth : Nat) {locals : Locals}
    {e : Expr} (he : ∀ s ∈ e.freeLocals, s ∈ locals.map Prod.fst) :
    NeverUnbound (evaluate here depth locals e w) :=
  h.neverUnbound here (Lockstep.evaluate (Nat.le_refl depth)
    ⟨⟨fun s hs _ => he s hs, fun _ _ => trivial⟩, fun _ _ _ _ => trivial⟩)

/-- In every reachable world the scopes of analysis and of evaluation stay in step. Every function
takes only names that are bound in its calls; analysis leaves the open scopes as they were, and what
it gives takes only names of them; what takes only bound names is evaluated without want of one, and
so is every text, and every call of a value. -/
theorem lexical_scope_sound (h : Reachable w) :
    w.Scoped ∧
    (∀ here depth scopes form,
      match Analysis.meaning here depth form ⟨w, scopes⟩ with
      | .ok e d => d.scopes = scopes ∧ (∀ s ∈ e.freeLocals, s ∈ scopes.flatten) ∧ Reachable d.world
      | .error _ d => d.scopes = scopes ∧ Reachable d.world) ∧
    (∀ here depth locals e, (∀ s ∈ e.freeLocals, s ∈ locals.map Prod.fst) →
      NeverUnbound (evaluate here depth locals e w)) ∧
    (∀ here depth text, NeverUnbound (Session.evalText here depth text w)) ∧
    ∀ here depth f args, NeverUnbound (apply here depth f args w) := by
  have hw := reachable_scoped h
  refine ⟨hw, fun here depth scopes form => ?_, fun here depth locals e he => ?_,
    fun here depth text => ?_, fun here depth f args => ?_⟩
  · have hscoped := analysis_scoped hw here depth scopes form
    have hreachable := h.meaning here depth scopes form
    generalize Analysis.meaning here depth form ⟨w, scopes⟩ = r at *
    cases r with
    | ok e d => exact ⟨hscoped.1, hscoped.2, hreachable⟩
    | error halt d => exact ⟨hscoped, hreachable⟩
  · exact hw.evaluate here depth he
  · exact hw.neverUnbound here (Lockstep.evalText trivial (Nat.le_refl depth) text)
  · exact hw.neverUnbound here (Lockstep.apply (Nat.le_refl depth)
      ((World.Scoped.kept here).allows f) ((World.Scoped.kept here).allowsAll args))

/-- After a definition of a function that makes functions, in a registry with a macro that names a
variable of its caller, calls are free of unbound names. -/
theorem lexical_scope_sound_adder :
    let here : Site := ⟨0, 0⟩
    let w := ((World.empty.after (.create 0 100)).after
      (.eval here 50 "(def adder (fn [x] (fn self [y & more] (let [z x] z))))")).after
      (.eval here 50 "(defmacro m [] (quote x)) (broken")
    Reachable w ∧ NeverUnbound (Session.evalText here 50 "((adder 1) 2) (m)" w) := by
  intro here w
  have h : Reachable w := ((Reachable.empty.after _).after _).after _
  exact ⟨h, (lexical_scope_sound h).2.2.2.1 here 50 _⟩

end SmallLisp
