import SmallLisp.Proofs.Action.Invariant
import SmallLisp.Proofs.Session.Lockstep

/-!
# Depth bounds nothing but the effort

What finishes with some depth finishes in the same way with any greater one, so that "with enough depth"
determines an outcome (`Finishes.unique`). The lockstep here is the poorest one: each world with
itself.
-/

namespace SmallLisp

variable {σ α : Type}

/-- The computation came to an end of its own, not for want of depth. -/
def Finished : EStateM.Result Halt σ α → Prop
  | .error .outOfDepth _ => False
  | _ => True

/-- Nothing is asked of the worlds. -/
theorem Kept.anything (here : Site) : Kept here False fun _ => True where
  covered _ _ _ := Closure.covered_free _
  newObject _ _ := trivial
  uniqueName _ _ _ := trivial
  print _ _ _ := trivial
  internKeyword _ _ _ := trivial
  internNamespace _ _ _ := trivial
  internVar _ _ _ := trivial
  threadState _ _ := trivial
  newFunction _ _ _ _ := trivial
  setRoot _ _ _ _ := trivial
  setMetadata _ _ _ _ := trivial

/-- Every world beside itself. -/
abbrev alone (here : Site) : Lockstep here := (Kept.anything here).invariant.lockstep

/-- Two runs that end together in the same states are equal, unless the first one lacks depth. -/
theorem EndTogether.eq {post : α → σ → σ → Prop} {exit : Halt → σ → σ → Prop}
    {r r' : EStateM.Result Halt σ α} (h : EndTogether post exit r r') (hr : Finished r)
    (hpost : ∀ x s t, post x s t → s = t) (hexit : ∀ e s t, exit e s t → s = t) : r' = r := by
  cases h with
  | ok h => rw [hpost _ _ _ h]
  | error h => rw [hexit _ _ _ h]
  | outOfDepth h => exact hr.elim

variable {here : Site} {P : α → Prop} {d d' : Nat} {w : World}

theorem Lockstep.Steps.deeper {a b : Action α} (h : (alone here).Steps P a b)
    (hr : Finished (a w)) : b w = a w :=
  (h w w ⟨rfl, trivial⟩).eq hr (fun _ _ _ h => h.2.1) fun _ _ _ h => h.2.1

theorem Lockstep.Analyses.deeper {S : List Scope} {a b : Analysis α}
    (h : (alone here).Analyses S P a b) (hr : Finished (a ⟨w, S⟩)) : b ⟨w, S⟩ = a ⟨w, S⟩ := by
  have same : ∀ d e, (alone here).Desks S d e → d = e := by
    rintro ⟨w, _⟩ ⟨u, _⟩ ⟨⟨rfl, -⟩, hd, he⟩
    exact congrArg (Desk.mk w) (hd.trans he.symm)
  exact (h ⟨w, S⟩ ⟨w, S⟩ ⟨⟨rfl, trivial⟩, rfl, rfl⟩).eq hr (fun _ _ _ h => same _ _ h.2)
    fun _ _ _ h => same _ _ h.2

/-- A form is expanded once in the same way with more depth. -/
theorem expandOnce_deeper (h : d ≤ d') {form : Value} (hr : Finished (expandOnce here d form w)) :
    expandOnce here d' form w = expandOnce here d form w :=
  Lockstep.Steps.deeper (Lockstep.expandOnce h form ((Kept.anything here).allows form)) hr

/-- A form is expanded in the same way with more depth. -/
theorem expandFully_deeper (h : d ≤ d') {form : Value} (hr : Finished (expandFully here d form w)) :
    expandFully here d' form w = expandFully here d form w :=
  Lockstep.Steps.deeper (Lockstep.expandFully h form ((Kept.anything here).allows form)) hr

/-- A form is analysed in the same way with more depth. -/
theorem meaning_deeper (h : d ≤ d') {S : List Scope} {form : Value}
    (hr : Finished (Analysis.meaning here d form ⟨w, S⟩)) :
    Analysis.meaning here d' form ⟨w, S⟩ = Analysis.meaning here d form ⟨w, S⟩ :=
  Lockstep.Analyses.deeper (Lockstep.meaning h S form ((Kept.anything here).allows form)) hr

/-- A text is evaluated in the same way with more depth. -/
theorem evalText_deeper (h : d ≤ d') {text : String}
    (hr : Finished (Session.evalText here d text w)) :
    Session.evalText here d' text w = Session.evalText here d text w :=
  Lockstep.Steps.deeper (Lockstep.evalText trivial h text) hr

end SmallLisp
