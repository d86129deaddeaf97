import SmallLisp.Proofs.Action.Run
import SmallLisp.Proofs.Analysis.Inert
import SmallLisp.Proofs.Analysis.Reached
import SmallLisp.Proofs.World.Quiet

/-!
# Analysis is quiet

Analysis interns names, and as long as it applies no function of a macro it does nothing else to the world, whether
it comes to an end or fails (`Quietly.meaning`). The names of new vars are those of the definitions to which it comes.
There is one lemma for each kind of form, which relies on the forms to which analysis goes from there being analysed
so (`AllQuietly`); together they are the step of an induction on the depth (`Quietly.form`).
-/

namespace SmallLisp

open World

variable {σ α β : Type} {world : σ → World} {here : Site} {names : List Symbol} {s : σ} {w u : World} {d : Desk}

/-- However the computation ends that begins in this state, the world has changed by what it interns there. -/
def Quietly (world : σ → World) (here : Site) (names : List Symbol) (a : EStateM Halt σ α) (s : σ) : Prop :=
  (world s).InUse here.registry →
    match a s with
    | .ok _ t | .error _ t => (world s).Quiet (world t) here names

/-- The target of a definition that has a namespace part names the current namespace, and any other one is put
there. -/
theorem World.qualify_target {current : Namespace} {q full : Symbol}
    (hplace : (w.currentNamespace here).1 = .ok current) (hown : q.isQualified = true → q.ns = current.name)
    (hfull : (w.qualify here q).1 = .ok full) : full = q.inNamespace current.name := by
  unfold World.qualify at hfull
  split at hfull
  · rename_i hqualified
    rw [← Except.ok.inj hfull, ← hown hqualified]
    rfl
  · dsimp only at hfull
    rw [hplace] at hfull
    exact (Except.ok.inj hfull).symm

namespace World.InUse

variable (h : w.InUse here.registry)
include h

theorem quiet_currentNamespace : w.Quiet (w.currentNamespace here).2 here names := h.quiet_threadState

theorem quiet_findVar (q : Symbol) : w.Quiet (w.findVar here q).2 here names := by
  unfold World.findVar
  split
  · exact .refl h.toRegistered
  · exact h.quiet_threadState

theorem quiet_qualify (q : Symbol) : w.Quiet (w.qualify here q).2 here names := by
  unfold World.qualify
  split
  · exact .refl h.toRegistered
  · exact h.quiet_threadState

/-- The core namespace is there already. -/
theorem quiet_internCore : w.Quiet (w.internCore here.registry).2 here names := by
  obtain ⟨n, v, hn, -⟩ := h.core
  unfold World.internCore
  rw [w.internNamespace_of_find _ hn]
  exact .refl h.toRegistered

end World.InUse

namespace Quietly

/-! ## Composed computations -/

theorem pure {x : α} : Quietly world here names (Pure.pure x) s := fun h => .refl h.toRegistered

theorem throw {e : Halt} : Quietly world here names (throw e : EStateM Halt σ α) s := fun h => .refl h.toRegistered

theorem bind {a : EStateM Halt σ α} {f : α → EStateM Halt σ β} (h : Quietly world here names a s)
    (hf : ∀ x t, a s = .ok x t → Quietly world here names (f x) t) : Quietly world here names (a >>= f) s := by
  intro hs
  have ha := h hs
  cases hrun : a s with
  | ok x t =>
    rw [hrun] at ha
    have hfx := hf x t hrun (hs.keeps ha.keeps ha.registered)
    rw [run_bind_of_ok hrun]
    generalize f x t = r at hfx ⊢
    cases r <;> exact ha.trans hfx
  | error e t =>
    rw [hrun] at ha
    rw [run_bind_of_error hrun]
    exact ha

/-- The registry may be taken to be in use. -/
theorem of_inUse {a : EStateM Halt σ α} (h : (world s).InUse here.registry → Quietly world here names a s) :
    Quietly world here names a s := fun hs => h hs hs

theorem failEval {fault : EvalFault} : Quietly id here names (Action.failEval fault : Action α) w := throw

theorem failAnalysis {fault : AnalysisFault} : Quietly id here names (Action.failAnalysis fault : Action α) w := throw

theorem view (f : World → α) : Quietly id here names (Action.view f) w := fun h => .refl h.toRegistered

theorem update {f : World → α × World} (h : w.InUse here.registry → w.Quiet (f w).2 here names) :
    Quietly id here names (Action.update f) w := h

theorem attempt {ε : Type} {wrap : ε → Error} {f : World → Except ε α × World}
    (h : w.InUse here.registry → w.Quiet (f w).2 here names) :
    Quietly id here names (Action.attempt wrap f) w := by
  intro hw
  have hf := h hw
  unfold Action.attempt
  generalize f w = r at hf ⊢
  obtain ⟨_ | _, u⟩ := r <;> exact hf

theorem act {a : Action α} (h : Quietly id here names a d.world) :
    Quietly Desk.world here names (Analysis.act a) d := by
  intro hd
  have ha := h hd
  unfold Analysis.act
  generalize a d.world = r at ha ⊢
  cases r <;> exact ha

theorem failForm {fault : AnalysisFault} : Quietly Desk.world here names (Analysis.fail fault : Analysis α) d :=
  act failAnalysis

theorem isLocal (q : Symbol) : Quietly Desk.world here names (Analysis.isLocal q) d := fun h => .refl h.toRegistered

theorem declare (q : Symbol) : Quietly Desk.world here names (Analysis.declare q) d := by
  obtain ⟨w, S⟩ := d
  cases S <;> exact fun h => .refl h.toRegistered

theorem within {scope : Scope} {a : Analysis α}
    (h : Quietly Desk.world here names a { d with scopes := scope :: d.scopes }) :
    Quietly Desk.world here names (Analysis.within scope a) d := by
  intro hd
  have ha := h hd
  unfold Analysis.within
  generalize a { d with scopes := scope :: d.scopes } = r at ha ⊢
  cases r <;> exact ha

/-! ## Names -/

theorem resolve (q : Symbol) : Quietly id here names (Analysis.resolve here q) w := by
  refine bind (attempt fun h => h.quiet_findVar q) fun found u _ => ?_
  split
  · exact pure
  · split
    · exact pure
    · exact bind (update fun h => h.quiet_internCore) fun core x _ => view _

theorem symbol (q : Symbol) : Quietly Desk.world here names (Analysis.symbol here q) d := by
  refine bind (isLocal q) fun found e _ => ?_
  split
  · exact pure
  · refine bind (act (resolve q)) fun found e _ => ?_
    split
    · exact pure
    · exact failForm

theorem localSymbol (v : Value) : Quietly id here names (Analysis.localSymbol v) w := by
  unfold Analysis.localSymbol
  split
  · split
    · exact failAnalysis
    · exact pure
  · exact failAnalysis

/-- The var of a definition is a new one of the current namespace, if it is new. -/
theorem target (form : SpecialForm) {v : Value} (hv : ∀ q, v = .symbol q → q ∈ names) :
    Quietly id here names (Analysis.target here form v) w := by
  refine of_inUse fun hw => ?_
  unfold Analysis.target
  split
  · rename_i q
    refine bind (attempt fun h => h.quiet_currentNamespace) fun current u hcurrent => ?_
    have hcurrent := of_attempt_ok hcurrent
    have hquiet : w.Quiet u here names := by
      have hquiet : w.Quiet (w.currentNamespace here).2 here names := hw.quiet_currentNamespace
      rwa [hcurrent] at hquiet
    have hplace : (u.currentNamespace here).1 = .ok current := by
      rw [hquiet.places, hcurrent]
    split
    · exact failAnalysis
    · rename_i hown
      refine of_inUse fun hu => ?_
      refine bind (attempt fun h => h.quiet_qualify q) fun full x hfull => ?_
      have hfull := of_attempt_ok hfull
      have hx : u.Quiet x here names := by
        have hx : u.Quiet (u.qualify here q).2 here names := hu.quiet_qualify q
        rwa [hfull] at hx
      obtain rfl := qualify_target hplace (by simpa using hown) (congrArg Prod.fst hfull)
      exact attempt fun h => h.quiet_internVar ((hx.places here).trans hplace) (hv q rfl)
  · exact failAnalysis

theorem params (forms : List Value) : Quietly id here names (Analysis.params forms) w := by
  induction forms generalizing w with
  | nil => exact pure
  | cons v vs ih =>
    simp only [Analysis.params]
    refine bind (localSymbol v) fun q u _ => ?_
    split
    · split
      · exact failAnalysis
      · refine bind (localSymbol _) fun rest u _ => ?_
        split
        · exact pure
        · exact failAnalysis
    · exact bind ih fun found u _ => pure

theorem markKey : Quietly id here names (markKey here) w :=
  bind (update fun h => h.toRegistered.quiet_internKeyword _) fun _ _ _ => pure

theorem object {f : ObjectId → Value} : Quietly id here names (do return f (← Action.newObject)) w :=
  bind (update fun h => h.toRegistered.quiet_newObject) fun _ _ _ => pure

theorem markMetadata : Quietly id here names (Analysis.markMetadata here) w :=
  bind markKey fun _ _ _ => object

/-! ## Forms one after the other -/

end Quietly

/-- All these forms are analysed so. -/
def AllQuietly (here : Site) (names : List Symbol) (an : Analyzer) (visits : List Analysis.Visit) : Prop :=
  ∀ p ∈ visits, Quietly Desk.world here names (an p.1) p.2

variable {an : Analyzer} {args : List Value}

namespace AllQuietly

theorem head {v : Value} {visits : List Analysis.Visit} (h : AllQuietly here names an ((v, d) :: visits)) :
    Quietly Desk.world here names (an v) d := h _ (List.mem_cons_self ..)

theorem tail {p : Analysis.Visit} {visits : List Analysis.Visit} (h : AllQuietly here names an (p :: visits)) :
    AllQuietly here names an visits := fun q hq => h q (List.mem_cons_of_mem _ hq)

theorem following {a : Analysis α} {next : α → Desk → List Analysis.Visit} {x : α} {e : Desk}
    (h : AllQuietly here names an (Analysis.following a next d)) (hrun : a d = .ok x e) :
    AllQuietly here names an (next x e) := by
  unfold Analysis.following at h
  rwa [hrun] at h

end AllQuietly

namespace Quietly

/-- The first of the forms, and what follows it on the way to the others. -/
theorem cons {v : Value} {vs : List Value} {f : Expr → Analysis α}
    (h : AllQuietly here names an (Analysis.inTurn an (v :: vs) d))
    (hrest : ∀ x e, AllQuietly here names an (Analysis.inTurn an vs e) → Quietly Desk.world here names (f x) e) :
    Quietly Desk.world here names (an v >>= f) d :=
  bind h.head fun x e hx => hrest x e (h.tail.following hx)

theorem inTurn {forms : List Value} (h : AllQuietly here names an (Analysis.inTurn an forms d)) :
    Quietly Desk.world here names (Action.forEach an forms) d := by
  induction forms generalizing d with
  | nil => exact pure
  | cons v vs ih => exact cons h fun x e h => bind (ih h) fun _ _ _ => pure

theorem body {forms : List Value} (h : AllQuietly here names an (Analysis.inTurn an forms d)) :
    Quietly Desk.world here names (Analysis.body an forms) d := by
  refine bind (inTurn h) fun exprs e _ => ?_
  split <;> exact pure

theorem call {head : Value} (h : AllQuietly here names an (Analysis.inTurn an (head :: args) d)) :
    Quietly Desk.world here names (Analysis.call an head args) d :=
  cons h fun _ _ h => bind (inTurn h) fun _ _ _ => pure

theorem entries {entries : List (Value × Value)}
    (h : AllQuietly here names an (Analysis.inTurn an (entries.flatMap fun e => [e.1, e.2]) d)) :
    Quietly Desk.world here names (Action.forEach (Analysis.entry an) entries) d := by
  induction entries generalizing d with
  | nil => exact pure
  | cons entry entries ih =>
    simp only [Action.forEach, Analysis.entry, bind_assoc, pure_bind]
    exact cons h fun k _ h => cons h fun v _ h => bind (ih h) fun _ _ _ => pure

/-! ## Special forms -/

theorem functionFrom {name : Option Symbol}
    (h : AllQuietly here names an (Analysis.functionFromParts an name args d)) :
    Quietly Desk.world here names (Analysis.functionFrom an name args) d := by
  unfold Analysis.functionFrom
  split
  · refine bind (act (params _)) fun found e hfound => ?_
    exact bind (within (body (h.following hfound))) fun _ _ _ => pure
  · exact failForm

theorem function (h : AllQuietly here names an (Analysis.functionParts an args d)) :
    Quietly Desk.world here names (Analysis.function an args) d := by
  unfold Analysis.function
  split
  · exact bind (act (localSymbol _)) fun name e hname => functionFrom (h.following hname)
  · rename_i hbare
    unfold Analysis.functionParts at h
    split at h
    · exact absurd rfl (hbare _ _)
    · exact functionFrom h

theorem bindings {pairs : List (Value × Value)}
    (h : AllQuietly here names an (Analysis.bindingParts an pairs d)) :
    Quietly Desk.world here names (Analysis.bindings an pairs) d := by
  induction pairs generalizing d with
  | nil => exact pure
  | cons pair pairs ih =>
    obtain ⟨name, init⟩ := pair
    refine bind (act (localSymbol name)) fun q e hq => ?_
    have h := h.following hq
    refine bind h.head fun x e hx => bind (declare q) fun _ e' hdeclare => ?_
    exact bind (ih (h.tail.following ((run_bind_of_ok hx).trans hdeclare))) fun _ _ _ => pure

theorem bind_form (h : AllQuietly here names an (Analysis.bindParts an args d)) :
    Quietly Desk.world here names (Analysis.bind an args) d := by
  unfold Analysis.bind
  split
  · split
    · rename_i heven
      simp only [Analysis.bindParts, if_pos heven] at h
      refine within (bind (bindings fun p hp => h p (List.mem_append_left _ hp)) fun bound e hbound => ?_)
      have hrest : AllQuietly here names an (Analysis.following _ _ _) := fun p hp => h p (List.mem_append_right _ hp)
      exact bind (body (hrest.following hbound)) fun _ _ _ => pure
    · exact failForm
  · exact failForm

theorem define (hname : ∀ q, args.head? = some (.symbol q) → q ∈ names)
    (h : AllQuietly here names an (Analysis.defineParts here args d)) :
    Quietly Desk.world here names (Analysis.define here an args) d := by
  unfold Analysis.define
  split
  · exact bind (act (target _ fun q hq => hname q (congrArg some hq))) fun _ _ _ => pure
  · refine bind (act (target _ fun q hq => hname q (congrArg some hq))) fun v e hv => ?_
    exact bind (h.following hv).head fun _ _ _ => pure
  · refine bind (act (target _ fun q hq => hname q (congrArg some hq))) fun v e hv => ?_
    exact bind (h.following hv).head fun _ _ _ => pure
  · exact failForm

theorem defineMacro (hname : ∀ q, args.head? = some (.symbol q) → q ∈ names)
    (h : AllQuietly here names an (Analysis.defineMacroParts here an args d)) :
    Quietly Desk.world here names (Analysis.defineMacro here an args) d := by
  unfold Analysis.defineMacro
  split
  · refine bind (act (target _ fun q hq => hname q (congrArg some hq))) fun v e hv => ?_
    exact bind (functionFrom (h.following hv)) fun _ _ _ => bind (act markMetadata) fun _ _ _ => pure
  · exact failForm
  · exact failForm

theorem branch (h : AllQuietly here names an (Analysis.branchParts an args d)) :
    Quietly Desk.world here names (Analysis.branch an args) d := by
  unfold Analysis.branch
  split
  · exact cons h fun test _ h => cons h fun yes _ _ => pure
  · exact cons h fun test _ h => cons h fun yes _ h => cons h fun no _ _ => pure
  · exact failForm

theorem theVar (args : List Value) : Quietly id here names (Analysis.theVar here args) w := by
  unfold Analysis.theVar
  split
  · refine bind (resolve _) fun found u _ => ?_
    split
    · exact pure
    · exact failAnalysis
  · exact failAnalysis
  · exact failAnalysis

theorem special {form : SpecialForm}
    (hname : form = .define ∨ form = .defineMacro → ∀ q, args.head? = some (.symbol q) → q ∈ names)
    (h : AllQuietly here names an (Analysis.specialParts here an form args d)) :
    Quietly Desk.world here names (Analysis.special here an form args) d := by
  unfold Analysis.special
  cases form with
  | quote =>
    dsimp only
    split
    · exact pure
    · exact failForm
  | define => exact define (hname (.inl rfl)) h
  | defineMacro => exact defineMacro (hname (.inr rfl)) h
  | branch => exact branch h
  | sequence => exact body h
  | bind => exact bind_form h
  | function => exact bind (function h) fun _ _ _ => pure
  | theVar => exact act (theVar args)

/-! ## Lists -/

theorem calledMacro (head : Symbol) : Quietly id here names (Analysis.calledMacro? here head) w := by
  refine bind (resolve head) fun found u _ => ?_
  split
  · exact pure
  · refine bind markKey fun key u _ => bind (view _) fun flag u _ => ?_
    split <;> exact pure

theorem kind (head : Symbol) : Quietly Desk.world here names (Analysis.kind here head) d := by
  refine bind (isLocal head) fun found e _ => ?_
  split
  · exact pure
  · refine act ?_
    unfold Analysis.globalKind
    split
    · exact pure
    · refine bind (calledMacro head) fun found u _ => ?_
      split <;> exact pure

theorem macroVar (head : Symbol) : Quietly id here names (macroVar? here head) w := by
  refine bind (attempt fun h => h.quiet_findVar head) fun found u _ => ?_
  split
  · exact pure
  · refine bind (view _) fun metadata u _ => ?_
    split
    · exact pure
    · refine bind markKey fun key u _ => bind (view _) fun flag u _ => ?_
      split <;> exact pure

/-- A form that no function expands is given back itself, or its macro is unbound. -/
theorem expandOnceWith (apply : Value → List Value → Action Value) {form : Value}
    (h : Analysis.expandsByFunction here form w = false) :
    Quietly id here names (SmallLisp.expandOnceWith apply here form) w ∧
      ∀ next u, SmallLisp.expandOnceWith apply here form w = .ok next u → next = form := by
  unfold SmallLisp.expandOnceWith
  split
  · rename_i head args
    have hunbound : ∀ m u, macroVar? here head w = .ok (some m) u →
        Action.view (·.root m) u = .ok none u := fun m u hm => by
      have hroot : u.root m = none := by simpa [Analysis.expandsByFunction, hm] using h
      exact congrArg (EStateM.Result.ok · u) hroot
    refine ⟨bind (macroVar head) fun found u hm => ?_, fun next u hrun => ?_⟩
    · cases found with
      | none => exact pure
      | some m =>
        refine bind (view _) fun root u' hroot => ?_
        cases (hunbound m u hm).symm.trans hroot
        exact failEval
    · obtain ⟨found, t, hm, hrun⟩ := of_run_bind_ok hrun
      cases found with
      | none =>
        cases hrun
        rfl
      | some m =>
        obtain ⟨root, t', hroot, hrun⟩ := of_run_bind_ok hrun
        cases (hunbound m t hm).symm.trans hroot
        cases hrun
  · exact ⟨pure, fun next u hrun => by cases hrun; rfl⟩

theorem expandFully {depth : Nat} {form : Value} (hself : form.identical form = true)
    (h : Analysis.expandsByFunction here form w = false) :
    Quietly id here names (SmallLisp.expandFully here depth form) w := by
  refine bind (view _) fun limit u hlimit => ?_
  cases hlimit
  obtain ⟨honce, hsame⟩ := expandOnceWith (apply here depth) h
  unfold expandWithin
  refine bind honce fun next u hrun => ?_
  -- The form has settled at once.
  obtain rfl := hsame next u hrun
  rw [if_pos hself]
  exact pure

theorem namedCall (m : Var) (head : Symbol) (form : Value) (args : List Value) :
    Quietly id here names (Analysis.namedCall m head form args) w ∧
      ∀ next u, Analysis.namedCall m head form args w = .ok next u → next = form ∨ next.identical next = true := by
  unfold Analysis.namedCall
  split
  · exact ⟨pure, fun next u hrun => by cases hrun; exact .inl rfl⟩
  · refine ⟨object, fun next u hrun => ?_⟩
    cases hrun
    exact .inr ((Value.identical_self_iff _).mpr nofun)

/-- A call of a macro that has no function. -/
theorem expansion {depth : Nat} {m : Var} {head : Symbol} {form : Value} (hself : form.identical form = true)
    (h : ∀ next u, Analysis.namedCall m head form args w = .ok next u →
      Analysis.expandsByFunction here next u = false) :
    Quietly id here names (Analysis.expansion (SmallLisp.expandFully here depth) m head form args) w := by
  have hnamed : Quietly id here names (Analysis.namedCall m head form args) w ∧ _ := namedCall m head form args
  refine bind hnamed.1 fun next u hnext => expandFully ?_ (h next u hnext)
  obtain rfl | hself' := hnamed.2 next u hnext
  · exact hself
  · exact hself'

/-! ## Forms -/

/-- A form is analysed so if the forms are to which analysis goes from it, if it is no call of a macro that has a
function, and if its name is one of the names in case it is a definition. -/
theorem form {depth : Nat} {v : Value} (happlies : Analysis.appliesMacro here (v, d) = false)
    (hname : ∀ q, Analysis.definedName? here (v, d) = some q → q ∈ names)
    (h : AllQuietly here names an (Analysis.parts here an (SmallLisp.expandFully here depth) v d)) :
    Quietly Desk.world here names (Analysis.form here an (SmallLisp.expandFully here depth) v) d := by
  unfold Analysis.form
  split
  · exact symbol _
  · rename_i id head args
    refine bind (kind head) fun kind e hkind => ?_
    have h := h.following hkind
    cases kind with
    | special form =>
      refine special (fun hform q hq => hname q ?_) h
      obtain ⟨rest, rfl⟩ := List.head?_eq_some_iff.mp hq
      obtain rfl | rfl := hform <;> simp [Analysis.definedName?, hkind]
    | macroCall m =>
      have hself : (Value.list id (.symbol head :: args)).identical (.list id (.symbol head :: args)) = true :=
        (Value.identical_self_iff _).mpr nofun
      refine bind (act (expansion hself fun form u hform => ?_)) fun settled e' hsettled =>
        (h.following hsettled).head
      simpa [Analysis.appliesMacro, hkind, hform] using happlies
    | call => exact call h
  · rename_i head args hsymbol
    cases head with
    | symbol q => exact absurd rfl (hsymbol q)
    | _ => exact call h
  · exact bind (inTurn h) fun _ _ _ => pure
  · exact bind (entries h) fun _ _ _ => pure
  · exact pure

/-- An analysis that applies no function of a macro, where the names hold those of all definitions to which it
comes. -/
theorem meaning {depth : Nat} {v : Value} (happlies : Analysis.AppliesNoMacro here depth v d)
    (hnames : ∀ q ∈ Analysis.definedNames here depth v d, q ∈ names) :
    Quietly Desk.world here names (Analysis.meaning here depth v) d := by
  induction depth generalizing v d with
  | zero => exact act throw
  | succ depth ih =>
    refine form (happlies _ (List.mem_cons_self ..)) (fun q hq => hnames q ?_) fun p hp => ih ?_ fun q hq => hnames q ?_
    · exact List.mem_filterMap.mpr ⟨_, List.mem_cons_self .., hq⟩
    · exact fun visit hvisit => happlies visit (Analysis.mem_visited hp hvisit)
    · obtain ⟨visit, hvisit, hdefined⟩ := List.mem_filterMap.mp hq
      exact List.mem_filterMap.mpr ⟨visit, Analysis.mem_visited hp hvisit, hdefined⟩

end Quietly

end SmallLisp
