import SmallLisp.Evaluation
import SmallLisp.Proofs.Native.Lockstep

/-!
# Evaluation in lockstep

In related worlds an expression that is sound in its scope is evaluated alike, a call is made alike and
a form is expanded alike (`Lockstep.evaluate`, `Lockstep.apply`, `Lockstep.expandFully`), where the
second run may be given more depth than the first. The induction is on the depth of the first run; one
lemma for each kind of expression is its step.
-/

namespace SmallLisp

/-- The names bound in the scope of a call that a function accepts. -/
theorem Closure.names_subset_bindArgs (c : Closure) (f : Function) (further : Value)
    (args : List Value) (h : c.signature.accepts args.length) :
    c.names ⊆ (c.bindArgs f further args).map Prod.fst := by
  have hparams : c.signature.params.length ≤ args.length := by
    unfold Signature.accepts at h
    split at h
    · simpa using h
    · exact Nat.le_of_eq (by simpa using (beq_iff_eq.mp h).symm)
  have hzip : (c.signature.params.zip args).map Prod.fst = c.signature.params :=
    List.map_fst_zip hparams
  intro s hs
  unfold Closure.names Signature.names at hs
  unfold Closure.bindArgs
  rw [← hzip] at hs
  cases hrest : c.signature.rest <;> cases hname : c.signature.name <;>
    simp only [hrest, hname, Option.toList_none, Option.toList_some, List.nil_append,
      List.append_nil, List.append_assoc, List.mem_append, List.mem_cons, List.not_mem_nil,
      List.map_cons, List.map_append, List.map_reverse, List.mem_reverse] at hs ⊢ <;>
    grind

/-- What is bound in the scope of a call refers to nothing beyond the function, what it was made in and the
arguments. -/
theorem Locals.Within.bindArgs {R : Ref → Prop} {c : Closure} (h : c.locals.Within R) {f : Function}
    (hf : R (.function f)) {further : Value} (hfurther : further.Within R) {args : List Value}
    (hargs : ∀ v ∈ args, v.Within R) : (c.bindArgs f further args).Within R := by
  have zipped {named : Locals} (hnamed : named.Within R) :
      Locals.Within R ((c.signature.params.zip args).reverse ++ named) := by
    intro l hl
    obtain hl | hl := List.mem_append.mp hl
    · exact hargs _ (List.of_mem_zip (List.mem_reverse.mp hl)).2
    · exact hnamed l hl
  have self (name : Symbol) : Locals.Within R ((name, .function f) :: c.locals) :=
    List.forall_mem_cons.mpr ⟨Value.within_function.mpr hf, h⟩
  unfold Closure.bindArgs
  cases c.signature.name with
  | none =>
    cases c.signature.rest with
    | none => exact zipped h
    | some rest => exact List.forall_mem_cons.mpr ⟨hfurther, zipped h⟩
  | some name =>
    cases c.signature.rest with
    | none => exact zipped (self name)
    | some rest => exact List.forall_mem_cons.mpr ⟨hfurther, zipped (self name)⟩

namespace Lockstep

variable {here : Site} {L : Lockstep here}

/-! ## Expansion -/

theorem markKey : L.Steps L.Allows (SmallLisp.markKey here) (SmallLisp.markKey here) :=
  bind (update (L.internKeyword _)) fun _ _ => plain rfl

theorem hasFlag (v : Var) (key : Value) :
    L.Runs (Action.view (·.hasFlag v key)) (Action.view (·.hasFlag v key)) := by
  refine look fun w u h => ?_
  unfold World.hasFlag
  rw [L.metadata h]

/-- The root of a var that may be read. -/
theorem viewRoot {v : Var} (hv : L.mayUse (.var v)) :
    L.Steps (fun root => ∀ x, root = some x → L.Allows x) (Action.view (·.root v))
      (Action.view (·.root v)) :=
  view fun _ _ h => ⟨(L.root h v hv).2, (L.root h v hv).1⟩

theorem findVar_steps (s : Symbol) :
    L.Steps L.MayRead (Action.attempt .eval (·.findVar here s))
      (Action.attempt .eval (·.findVar here s)) :=
  attemptEval (findVar s)

theorem macroVar (head : Symbol) :
    L.Steps L.MayRead (macroVar? here head) (macroVar? here head) := by
  refine bind (findVar_steps head) fun found hfound => ?_
  split
  · exact pure nofun
  · rename_i v
    refine bind (look fun w u h => by rw [L.metadata h]) fun bare _ => ?_
    split
    · exact pure nofun
    · refine bind markKey fun key _ => ?_
      refine bind (hasFlag v key) fun flag _ => ?_
      split
      · exact pure hfound
      · exact pure nofun

theorem expandOnceWith {ap ap' : Value → List Value → Action Value}
    (h : ∀ f args, L.Allows f → L.AllowsAll args → L.Steps L.Allows (ap f args) (ap' f args)) :
    L.Expands (SmallLisp.expandOnceWith ap here) (SmallLisp.expandOnceWith ap' here) := by
  intro form hform
  unfold SmallLisp.expandOnceWith
  split
  · rename_i args
    have hargs : L.AllowsAll args := AllowsAll.tail (Value.within_list.mp hform)
    refine bind (macroVar _) fun found hfound => ?_
    split
    · exact pure hform
    · rename_i v
      refine bind (viewRoot (hfound v rfl)) fun root hroot => ?_
      split
      · exact failEval nofun
      · exact h _ _ (hroot _ rfl) (AllowsAll.cons hform (AllowsAll.cons (allows_plain rfl) hargs))
  · exact pure hform

theorem expandWithin {once once' : Value → Action Value} (h : L.Expands once once')
    (whole : Value) (limit left : Nat) :
    L.Expands (SmallLisp.expandWithin once whole limit left)
      (SmallLisp.expandWithin once' whole limit left) := by
  intro form hform
  induction left generalizing form with
  | zero =>
    refine bind (h form hform) fun expanded _ => ?_
    split
    · exact pure hform
    · exact fail nofun nofun
  | succ left ih =>
    refine bind (h form hform) fun expanded hexpanded => ?_
    split
    · exact pure hform
    · exact ih expanded hexpanded

theorem expandFullyWith {once once' : Value → Action Value} (h : L.Expands once once') :
    L.Expands (SmallLisp.expandFullyWith once here) (SmallLisp.expandFullyWith once' here) :=
  fun form hform => bind (look fun _ _ h => L.limit h) fun limit _ =>
    expandWithin h form limit limit form hform

/-! ## Expressions -/

/-- The expression may be evaluated in this scope. -/
structure SoundAt (L : Lockstep here) (locals : Locals) (e : Expr) : Prop where
  /-- Under the names of the scope. -/
  sound : L.Sound (locals.map Prod.fst) e
  /-- The values in the scope may be used. -/
  allows : locals.Within L.mayUse

/-- Sound expressions are evaluated alike with these depths. -/
def Evaluates (L : Lockstep here) (d d' : Nat) : Prop :=
  ∀ locals e, L.SoundAt locals e →
    L.Steps L.Allows (SmallLisp.evaluate here d locals e) (SmallLisp.evaluate here d' locals e)

/-- Values are called alike with these depths. -/
def Applies (L : Lockstep here) (d d' : Nat) : Prop :=
  ∀ f args, L.Allows f → L.AllowsAll args →
    L.Steps L.Allows (SmallLisp.apply here d f args) (SmallLisp.apply here d' f args)

variable {d d' : Nat} {locals : Locals}

theorem evaluateAll (he : L.Evaluates d d') (hl : locals.Within L.mayUse) {es : List Expr}
    (h : ∀ e ∈ es, L.Sound (locals.map Prod.fst) e) :
    L.Steps L.AllowsAll (Action.forEach (SmallLisp.evaluate here d locals) es)
      (Action.forEach (SmallLisp.evaluate here d' locals) es) :=
  forEach fun e hmem => he locals e ⟨h e hmem, hl⟩

theorem evaluate_root {v : Var} (h : L.SoundAt locals (.root v)) :
    L.Steps L.Allows (SmallLisp.evaluate here (d + 1) locals (.root v))
      (SmallLisp.evaluate here (d' + 1) locals (.root v)) := by
  simp only [SmallLisp.evaluate]
  refine bind (viewRoot (Expr.sound_root.mp h.sound)) fun root hroot => ?_
  split
  · exact pure (hroot _ rfl)
  · exact failEval nofun

theorem evaluate_localName {s : Symbol} (h : L.SoundAt locals (.localName s)) :
    L.Steps L.Allows (SmallLisp.evaluate here (d + 1) locals (.localName s))
      (SmallLisp.evaluate here (d' + 1) locals (.localName s)) := by
  simp only [SmallLisp.evaluate]
  split
  · rename_i x hx
    obtain ⟨before, after, rfl, -⟩ := List.lookup_eq_some_iff.mp hx
    exact pure (h.allows (s, x) (by simp))
  · rename_i hnone
    -- The name is not bound, which a strict lockstep excludes.
    refine fun w u hr => .error ⟨⟨fun hstrict s' _ => ?_, nofun⟩, hr⟩
    have hs : s ∈ locals.map Prod.fst := Expr.sound_localName.mp h.sound hstrict
    obtain ⟨⟨_, x⟩, hmem, rfl⟩ := List.mem_map.mp hs
    exact absurd hnone (by
      unfold Locals.value?
      rw [List.lookup_eq_none_iff]
      exact fun hall => by simpa using hall _ hmem)

theorem evaluate_define (he : L.Evaluates d d') {v : Var} {value : Option Expr}
    {metadata : Option Value} (h : L.SoundAt locals (.define v value metadata)) :
    L.Steps L.Allows (SmallLisp.evaluate here (d + 1) locals (.define v value metadata))
      (SmallLisp.evaluate here (d' + 1) locals (.define v value metadata)) := by
  obtain ⟨htarget, hvar, hvalue⟩ := Expr.sound_define.mp h.sound
  have done : L.Steps L.Allows (Pure.pure (Value.var v)) (Pure.pure (Value.var v)) :=
    pure (Value.within_var.mpr hvar)
  have marked (m : Value) : L.Steps L.Allows
      (do Action.change (·.setMetadata v m); Pure.pure (Value.var v))
      (do Action.change (·.setMetadata v m); Pure.pure (Value.var v)) :=
    bind (change (L.setMetadata v m htarget)) fun _ _ => done
  simp only [SmallLisp.evaluate]
  cases value with
  | none =>
    cases metadata with
    | none => exact done
    | some m => exact marked m
  | some value =>
    refine bind (he locals value ⟨hvalue value rfl, h.allows⟩) fun x hx => ?_
    refine bind (change (L.setRoot v x htarget hx)) fun _ _ => ?_
    cases metadata with
    | none => exact done
    | some m => exact marked m

theorem evaluate_branch (he : L.Evaluates d d') {test yes : Expr} {no : Option Expr}
    (h : L.SoundAt locals (.branch test yes no)) :
    L.Steps L.Allows (SmallLisp.evaluate here (d + 1) locals (.branch test yes no))
      (SmallLisp.evaluate here (d' + 1) locals (.branch test yes no)) := by
  obtain ⟨htest, hyes, hno⟩ := Expr.sound_branch.mp h.sound
  simp only [SmallLisp.evaluate]
  refine bind (he locals test ⟨htest, h.allows⟩) fun x _ => ?_
  split
  · exact he locals yes ⟨hyes, h.allows⟩
  · cases no with
    | none => exact plain rfl
    | some no => exact he locals no ⟨hno no rfl, h.allows⟩

theorem evaluate_bindings (he : L.Evaluates d d') {bindings : List (Symbol × Expr)} {body : Expr}
    (h : L.SoundAt locals (.bind bindings body)) :
    L.Steps L.Allows
      (do
        let locals ← bindings.foldlM (fun scope (name, init) => do
          return (name, ← SmallLisp.evaluate here d scope init) :: scope) locals
        SmallLisp.evaluate here d locals body)
      (do
        let locals ← bindings.foldlM (fun scope (name, init) => do
          return (name, ← SmallLisp.evaluate here d' scope init) :: scope) locals
        SmallLisp.evaluate here d' locals body) := by
  induction bindings generalizing locals with
  | nil => exact he locals body ⟨Expr.sound_bind_nil.mp h.sound, h.allows⟩
  | cons binding bindings ih =>
    obtain ⟨name, init⟩ := binding
    obtain ⟨hinit, hrest⟩ := Expr.soundIn_bind_cons.mp h.sound
    simp only [List.foldlM_cons, bind_assoc, pure_bind]
    refine bind (he locals init ⟨hinit, h.allows⟩) fun x hx => ?_
    exact @ih ((name, x) :: locals) ⟨hrest, List.forall_mem_cons.mpr ⟨hx, h.allows⟩⟩

theorem evaluate_step (he : L.Evaluates d d') (ha : L.Applies d d') :
    L.Evaluates (d + 1) (d' + 1) := by
  intro locals e h
  cases e with
  | const v =>
    simp only [SmallLisp.evaluate]
    exact pure (Expr.sound_const.mp h.sound)
  | root v => exact evaluate_root h
  | localName s => exact evaluate_localName h
  | define v value metadata => exact evaluate_define he h
  | branch test yes no => exact evaluate_branch he h
  | sequence es =>
    simp only [SmallLisp.evaluate]
    refine bind (evaluateAll he h.allows (Expr.sound_sequence.mp h.sound)) fun values hvalues => ?_
    exact pure (Value.Within.getD (fun v hv => hvalues v (List.mem_of_getLast? hv))
      (allows_plain rfl))
  | bind bindings body =>
    simp only [SmallLisp.evaluate]
    exact evaluate_bindings he h
  | function signature body =>
    simp only [SmallLisp.evaluate]
    have hcov : (⟨signature, body, locals⟩ : Closure).Covered L.strict L.mayUse :=
      ⟨Expr.soundIn_function.mp h.sound, h.allows⟩
    exact bind (update (L.newFunction _ hcov)) fun f hf => pure (Value.within_function.mpr hf)
  | call callee args =>
    obtain ⟨hcallee, hargs⟩ := Expr.sound_call.mp h.sound
    simp only [SmallLisp.evaluate]
    refine bind (he locals callee ⟨hcallee, h.allows⟩) fun f hf => ?_
    exact bind (evaluateAll he h.allows hargs) fun values hvalues => ha f values hf hvalues
  | vector items =>
    simp only [SmallLisp.evaluate]
    exact bind (evaluateAll he h.allows (Expr.sound_vector.mp h.sound)) fun values hvalues =>
      newVector hvalues
  | map entries =>
    simp only [SmallLisp.evaluate]
    refine bind (P := Value.EntriesWithin L.mayUse) (forEach fun e hmem => ?_) fun pairs hpairs =>
      newMap hpairs.entriesOf
    obtain ⟨hk, hv⟩ := Expr.sound_map.mp h.sound e hmem
    refine bind (he locals e.1 ⟨hk, h.allows⟩) fun k hk => ?_
    exact bind (he locals e.2 ⟨hv, h.allows⟩) fun v hv => pure ⟨hk, hv⟩
  | theVar v =>
    simp only [SmallLisp.evaluate]
    exact pure (Value.within_var.mpr (Expr.sound_theVar.mp h.sound))

/-! ## Calls -/

theorem lookupCall (f : Value) {find : Value → Option Value} {args : List Value}
    (hfind : ∀ a v, L.Allows a → find a = some v → L.Allows v) (h : L.AllowsAll args) :
    L.Steps L.Allows (SmallLisp.lookupCall f find args) (SmallLisp.lookupCall f find args) := by
  unfold SmallLisp.lookupCall
  split
  · exact pure (Value.Within.getD (fun v => hfind _ v h.head) (allows_plain rfl))
  · exact pure (Value.Within.getD (fun v => hfind _ v h.head) h.tail.head)
  · exact failEval nofun

theorem furtherArgs (s : Signature) {args : List Value} (h : L.AllowsAll args) :
    L.Steps L.Allows (SmallLisp.furtherArgs s args) (SmallLisp.furtherArgs s args) := by
  unfold SmallLisp.furtherArgs
  split
  · exact plain rfl
  · exact plain rfl
  · exact newList fun v hv => h v (List.mem_of_mem_drop hv)

theorem apply_function (he : L.Evaluates d d') {f : Function} (hf : L.mayUse (.function f))
    {args : List Value} (h : L.AllowsAll args) :
    L.Steps L.Allows (SmallLisp.apply here (d + 1) (.function f) args)
      (SmallLisp.apply here (d' + 1) (.function f) args) := by
  simp only [SmallLisp.apply]
  refine bind (view fun w u hr => ⟨(L.closure hr f hf).2, (L.closure hr f hf).1⟩)
    fun closure hcov => ?_
  split
  · rename_i hacc
    refine bind (furtherArgs _ h) fun further hfurther => he _ _ ⟨?_, ?_⟩
    · exact hcov.body.mono (closure.names_subset_bindArgs f further args hacc)
    · exact hcov.locals.bindArgs hf hfurther h
  · exact failEval nofun

theorem apply_step (he : L.Evaluates d d') (ha : L.Applies d d') :
    L.Applies (d + 1) (d' + 1) := by
  intro f args hf h
  have once : L.Expands (SmallLisp.expandOnceWith (SmallLisp.apply here d) here)
      (SmallLisp.expandOnceWith (SmallLisp.apply here d') here) := expandOnceWith ha
  cases f with
  | native native =>
    simp only [SmallLisp.apply]
    exact call once (expandFullyWith once) native h
  | function f => exact apply_function he (Value.within_function.mp hf) h
  | var v =>
    simp only [SmallLisp.apply]
    refine bind (viewRoot (Value.within_var.mp hf)) fun root hroot => ?_
    split
    · exact ha _ args (hroot _ rfl) h
    · exact failEval nofun
  | keyword k =>
    simp only [SmallLisp.apply]
    exact lookupCall _ (fun _ _ ha hv => ha.lookupIn hv) h
  | map id entries =>
    simp only [SmallLisp.apply]
    exact lookupCall _ (fun _ _ _ hv => (Value.within_map.mp hf).lookup hv) h
  | _ =>
    simp only [SmallLisp.apply]
    exact failEval nofun

/-- With at least as much depth, everything is evaluated and called alike. -/
theorem evaluates_applies (h : d ≤ d') : L.Evaluates d d' ∧ L.Applies d d' := by
  induction d generalizing d' with
  | zero =>
    refine ⟨fun locals e _ => ?_, fun f args _ _ => ?_⟩
    · simp only [SmallLisp.evaluate]
      exact outOfDepth
    · simp only [SmallLisp.apply]
      exact outOfDepth
  | succ d ih =>
    obtain ⟨d'', rfl⟩ : ∃ d'', d' = d'' + 1 := ⟨d' - 1, by omega⟩
    obtain ⟨he, ha⟩ := ih (Nat.le_of_succ_le_succ h)
    exact ⟨evaluate_step he ha, apply_step he ha⟩

/-- A sound expression is evaluated alike. -/
theorem evaluate (h : d ≤ d') {e : Expr} (hs : L.SoundAt locals e) :
    L.Steps L.Allows (SmallLisp.evaluate here d locals e) (SmallLisp.evaluate here d' locals e) :=
  (evaluates_applies h).1 locals e hs

/-- A value is called alike. -/
theorem apply (h : d ≤ d') {f : Value} (hf : L.Allows f) {args : List Value}
    (hargs : L.AllowsAll args) :
    L.Steps L.Allows (SmallLisp.apply here d f args) (SmallLisp.apply here d' f args) :=
  (evaluates_applies h).2 f args hf hargs

/-- A form is expanded once alike. -/
theorem expandOnce (h : d ≤ d') :
    L.Expands (SmallLisp.expandOnce here d) (SmallLisp.expandOnce here d') :=
  expandOnceWith fun _ _ hf hargs => apply h hf hargs

/-- A form is expanded alike. -/
theorem expandFully (h : d ≤ d') :
    L.Expands (SmallLisp.expandFully here d) (SmallLisp.expandFully here d') :=
  expandFullyWith (expandOnce h)

end Lockstep

end SmallLisp
