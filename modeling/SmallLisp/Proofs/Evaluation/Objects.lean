import SmallLisp.Evaluation
import SmallLisp.Proofs.Native.Objects

/-!
# The objects that evaluation makes

An expression whose constants are among the objects, in a scope whose values are, has a value that is among the
objects there are then, and so has a call, and the expansion of a form (`Makes.evaluate`, `Makes.apply`,
`Makes.expandFully`). The induction is on the depth; one lemma for each kind of expression is its step.
-/

namespace SmallLisp

variable {os more : Objects}

/-- What is bound in the scope of a call is among the objects if the arguments and what the function was made in
are. -/
theorem Locals.Among.bindArgs {c : Closure} (h : c.locals.Among os) {f : Function} {further : Value}
    (hfurther : further.Among os) {args : List Value} (hargs : Value.AllAmong os args) :
    (c.bindArgs f further args).Among os := by
  have zipped {named : Locals} (hnamed : named.Among os) :
      Locals.Among os ((c.signature.params.zip args).reverse ++ named) := by
    intro l hl
    obtain hl | hl := List.mem_append.mp hl
    · exact hargs _ (List.of_mem_zip (List.mem_reverse.mp hl)).2
    · exact hnamed l hl
  have self (name : Symbol) : Locals.Among os ((name, .function f) :: c.locals) :=
    List.forall_mem_cons.mpr ⟨Value.among_of_noObject rfl, h⟩
  unfold Closure.bindArgs
  cases c.signature.name with
  | none =>
    cases c.signature.rest with
    | none => exact zipped h
    | some rest => exact List.forall_mem_cons.mpr ⟨hfurther, zipped h⟩
  | some name =>
    cases c.signature.rest with
    | none => exact zipped (self name)
    | some rest => exact List.forall_mem_cons.mpr ⟨hfurther, zipped (self name)⟩

namespace Makes

variable {here : Site} {d : Nat} {locals : Locals} {args : List Value}

/-! ## Expansion -/

theorem markKey : Gives (SmallLisp.markKey here) os :=
  bind (update fun _ hw => hw.internKeyword here.registry _) fun _ _ _ _ => plain rfl

theorem findVar (s : Symbol) : Makes id os (fun _ _ => True) (Action.attempt .eval (·.findVar here s)) :=
  attempt fun _ hw => hw.findVar here s

theorem macroVar (head : Symbol) : Makes id os (fun _ _ => True) (macroVar? here head) := by
  refine bind (findVar head) fun _ found _ _ => ?_
  split
  · exact pure trivial
  · refine bind (look _) fun _ bare _ _ => ?_
    split
    · exact pure trivial
    · refine bind markKey fun _ key _ _ => ?_
      refine bind (look _) fun _ flag _ _ => ?_
      split <;> exact pure trivial

theorem expandOnceWith {ap : Value → List Value → Action Value}
    (h : ∀ {more f args}, f.Among more → Value.AllAmong more args → Gives (ap f args) more) :
    Expands (SmallLisp.expandOnceWith ap here) := by
  intro os form hform
  unfold SmallLisp.expandOnceWith
  split
  · rename_i args
    have hargs : Value.AllAmong os args := (Value.among_list.mp hform).2.tail
    refine bind (macroVar _) fun more found hmore _ => ?_
    split
    · exact pure (hform.mono hmore)
    · refine bind (root _) fun later expander hlater hexpander => ?_
      split
      · exact failEval
      · -- The expander is handed the call itself, nil, and the arguments.
        have hnil : Value.AllAmong os (.nil :: args) := .cons (Value.among_of_noObject rfl) hargs
        exact h (hexpander _ rfl) ((Value.AllAmong.cons hform hnil).mono (hmore.trans hlater))
  · exact pure hform

theorem expandWithin {once : Value → Action Value} (h : Expands once) (whole : Value) (limit left : Nat) :
    Expands (SmallLisp.expandWithin once whole limit left) := by
  intro os form hform
  induction left generalizing os form with
  | zero =>
    refine bind (h hform) fun more expanded hmore _ => ?_
    split
    · exact pure (hform.mono hmore)
    · exact fail
  | succ left ih =>
    refine bind (h hform) fun more expanded hmore hexpanded => ?_
    split
    · exact pure (hform.mono hmore)
    · exact ih hexpanded

theorem expandFullyWith {once : Value → Action Value} (h : Expands once) :
    Expands (SmallLisp.expandFullyWith once here) := by
  intro os form hform
  exact bind (look _) fun more limit hmore _ => expandWithin h form limit limit (hform.mono hmore)

/-! ## Expressions -/

/-- Expressions are evaluated to what is among the objects, with this depth. -/
def Evaluates (here : Site) (d : Nat) : Prop :=
  ∀ {os locals e}, locals.Among os → e.Among os → Gives (SmallLisp.evaluate here d locals e) os

/-- Values are called for what is among the objects, with this depth. -/
def Applies (here : Site) (d : Nat) : Prop :=
  ∀ {os f args}, f.Among os → Value.AllAmong os args → Gives (SmallLisp.apply here d f args) os

theorem evaluateAll (he : Evaluates here d) (hl : locals.Among os) {es : List Expr}
    (h : ∀ e ∈ es, e.Among os) :
    Makes id os Value.AllAmong (Action.forEach (SmallLisp.evaluate here d locals) es) :=
  each fun e hmem _ hmore => he (hl.mono hmore) ((h e hmem).mono hmore)

theorem evaluate_root (v : Var) : Gives (SmallLisp.evaluate here (d + 1) locals (.root v)) os := by
  simp only [SmallLisp.evaluate]
  refine bind (root v) fun _ x _ hx => ?_
  split
  · exact pure (hx _ rfl)
  · exact failEval

theorem evaluate_localName (hl : locals.Among os) (s : Symbol) :
    Gives (SmallLisp.evaluate here (d + 1) locals (.localName s)) os := by
  simp only [SmallLisp.evaluate]
  split
  · rename_i x hx
    obtain ⟨before, after, rfl, -⟩ := List.lookup_eq_some_iff.mp hx
    exact pure (hl (s, x) (by simp))
  · exact failEval

theorem evaluate_define (he : Evaluates here d) (hl : locals.Among os) {v : Var} {value : Option Expr}
    {metadata : Option Value} (hvalue : ∀ e, value = some e → e.Among os)
    (hmetadata : ∀ m, metadata = some m → m.Among os) :
    Gives (SmallLisp.evaluate here (d + 1) locals (.define v value metadata)) os := by
  have done {more} : Gives (Pure.pure (Value.var v)) more := plain rfl
  have marked {more m} (hm : m.Among more) :
      Gives (do Action.change (·.setMetadata v m); Pure.pure (Value.var v)) more :=
    bind (change fun _ hw => hw.setMetadata v hm) fun _ _ _ _ => done
  simp only [SmallLisp.evaluate]
  cases value with
  | none =>
    cases metadata with
    | none => exact done
    | some m => exact marked (hmetadata m rfl)
  | some value =>
    refine bind (he hl (hvalue value rfl)) fun more x hmore hx => ?_
    refine bind (change fun _ hw => hw.setRoot v hx) fun later _ hlater _ => ?_
    cases metadata with
    | none => exact done
    | some m => exact marked ((hmetadata m rfl).mono (hmore.trans hlater))

theorem evaluate_branch (he : Evaluates here d) (hl : locals.Among os) {test yes : Expr} {no : Option Expr}
    (htest : test.Among os) (hyes : yes.Among os) (hno : ∀ e, no = some e → e.Among os) :
    Gives (SmallLisp.evaluate here (d + 1) locals (.branch test yes no)) os := by
  simp only [SmallLisp.evaluate]
  refine bind (he hl htest) fun more x hmore _ => ?_
  split
  · exact he (hl.mono hmore) (hyes.mono hmore)
  · cases no with
    | none => exact plain rfl
    | some no => exact he (hl.mono hmore) ((hno no rfl).mono hmore)

theorem evaluate_bindings (he : Evaluates here d) (hl : locals.Among os) {bindings : List (Symbol × Expr)}
    {body : Expr} (hbindings : ∀ b ∈ bindings, b.2.Among os) (hbody : body.Among os) :
    Gives
      (do
        let locals ← bindings.foldlM (fun scope (name, init) => do
          return (name, ← SmallLisp.evaluate here d scope init) :: scope) locals
        SmallLisp.evaluate here d locals body) os := by
  induction bindings generalizing os locals with
  | nil => exact he hl hbody
  | cons binding bindings ih =>
    obtain ⟨name, init⟩ := binding
    obtain ⟨hinit, hrest⟩ := List.forall_mem_cons.mp hbindings
    simp only [List.foldlM_cons, bind_assoc, pure_bind]
    refine bind (he hl hinit) fun more x hmore hx => ?_
    have hscope : Locals.Among more ((name, x) :: locals) := List.forall_mem_cons.mpr ⟨hx, hl.mono hmore⟩
    exact ih hscope (fun b hb => (hrest b hb).mono hmore) (hbody.mono hmore)

theorem evaluate_map (he : Evaluates here d) (hl : locals.Among os) {entries : List (Expr × Expr)}
    (hkeys : ∀ e ∈ entries, e.1.Among os) (hvalues : ∀ e ∈ entries, e.2.Among os) :
    Gives (SmallLisp.evaluate here (d + 1) locals (.map entries)) os := by
  -- A key is among more objects once its value has been evaluated behind it.
  simp only [SmallLisp.evaluate]
  refine bind (P := Value.EntriesAmong) ?_ fun _ pairs _ hpairs =>
    newMap (Value.distinctKeys_entriesOf pairs) hpairs.entriesOf
  refine forEach (Q := Value.EntryAmong) Value.EntryAmong.mono fun e hmem more hmore => ?_
  refine bind (he (hl.mono hmore) ((hkeys e hmem).mono hmore)) fun further k hfurther hk => ?_
  have hfurther' := hmore.trans hfurther
  refine bind (he (hl.mono hfurther') ((hvalues e hmem).mono hfurther')) fun last v hlast hv => ?_
  exact pure ⟨hk.mono hlast, hv⟩

theorem evaluate_step (he : Evaluates here d) (ha : Applies here d) : Evaluates here (d + 1) := by
  intro os locals e hl h
  cases h with
  | const hv =>
    simp only [SmallLisp.evaluate]
    exact pure hv
  | root v => exact evaluate_root v
  | localName s => exact evaluate_localName hl s
  | define hvalue hmetadata => exact evaluate_define he hl hvalue hmetadata
  | branch htest hyes hno => exact evaluate_branch he hl htest hyes hno
  | sequence hes =>
    simp only [SmallLisp.evaluate]
    refine bind (evaluateAll he hl hes) fun _ values _ hvalues => ?_
    exact pure (Value.among_getD (fun v hv => hvalues v (List.mem_of_getLast? hv)) (Value.among_of_noObject rfl))
  | bind hbindings hbody =>
    simp only [SmallLisp.evaluate]
    exact evaluate_bindings he hl hbindings hbody
  | function hbody =>
    simp only [SmallLisp.evaluate]
    exact bind (update fun _ hw => hw.newFunction ⟨hbody, hl⟩) fun _ f _ _ => plain rfl
  | call hcallee hargs =>
    simp only [SmallLisp.evaluate]
    refine bind (he hl hcallee) fun more f hmore hf => ?_
    have hall := evaluateAll he (hl.mono hmore) fun e he => (hargs e he).mono hmore
    exact bind hall fun later values hlater hvalues => ha (hf.mono hlater) hvalues
  | vector hitems =>
    simp only [SmallLisp.evaluate]
    exact bind (evaluateAll he hl hitems) fun _ values _ hvalues => newVector hvalues
  | map hkeys hvalues => exact evaluate_map he hl hkeys hvalues
  | theVar v =>
    simp only [SmallLisp.evaluate]
    exact plain rfl

/-! ## Calls -/

theorem lookupCall (f : Value) {find : Value → Option Value}
    (hfind : ∀ a v, a.Among os → find a = some v → v.Among os) (h : Value.AllAmong os args) :
    Gives (SmallLisp.lookupCall f find args) os := by
  unfold SmallLisp.lookupCall
  split
  · exact pure (Value.among_getD (fun v => hfind _ v h.head) (Value.among_of_noObject rfl))
  · exact pure (Value.among_getD (fun v => hfind _ v h.head) h.tail.head)
  · exact failEval

theorem furtherArgs (s : Signature) (h : Value.AllAmong os args) : Gives (SmallLisp.furtherArgs s args) os := by
  unfold SmallLisp.furtherArgs
  split
  · exact plain rfl
  · exact plain rfl
  · exact newList fun v hv => h v (List.mem_of_mem_drop hv)

theorem apply_function (he : Evaluates here d) (f : Function) (h : Value.AllAmong os args) :
    Gives (SmallLisp.apply here (d + 1) (.function f) args) os := by
  simp only [SmallLisp.apply]
  refine bind (P := Closure.Among) (view fun _ hw => hw.closure f) fun more c hmore hc => ?_
  split
  · refine bind (furtherArgs _ (h.mono hmore)) fun later further hlater hfurther => ?_
    have hall := h.mono (hmore.trans hlater)
    exact he ((hc.mono hlater).locals.bindArgs hfurther hall) (hc.mono hlater).body
  · exact failEval

theorem apply_step (he : Evaluates here d) (ha : Applies here d) : Applies here (d + 1) := by
  intro os f args hf h
  have once : Expands (SmallLisp.expandOnceWith (SmallLisp.apply here d) here) := expandOnceWith ha
  cases f with
  | native native =>
    simp only [SmallLisp.apply]
    exact call once (expandFullyWith once) native h
  | function f => exact apply_function he f h
  | var v =>
    simp only [SmallLisp.apply]
    refine bind (root v) fun _ x hmore hx => ?_
    split
    · exact ha (hx _ rfl) (h.mono hmore)
    · exact failEval
  | keyword k =>
    simp only [SmallLisp.apply]
    exact lookupCall _ (fun _ _ ha hv => ha.lookupIn hv) h
  | map id entries =>
    simp only [SmallLisp.apply]
    exact lookupCall _ (fun _ _ _ hv => (Value.among_map.mp hf).2.lookup hv) h
  | _ =>
    simp only [SmallLisp.apply]
    exact failEval

/-- Evaluations and calls are inside one another, each with one less of the depth. -/
theorem evaluates_applies (d : Nat) : Evaluates here d ∧ Applies here d := by
  induction d with
  | zero =>
    refine ⟨fun _ _ => ?_, fun _ _ => ?_⟩
    · simp only [SmallLisp.evaluate]
      exact throw
    · simp only [SmallLisp.apply]
      exact throw
  | succ d ih => exact ⟨evaluate_step ih.1 ih.2, apply_step ih.1 ih.2⟩

/-- The value of an expression. -/
theorem evaluate (hl : locals.Among os) {e : Expr} (he : e.Among os) :
    Gives (SmallLisp.evaluate here d locals e) os :=
  (evaluates_applies d).1 hl he

/-- The value of a call. -/
theorem apply {f : Value} (hf : f.Among os) (h : Value.AllAmong os args) :
    Gives (SmallLisp.apply here d f args) os :=
  (evaluates_applies d).2 hf h

/-- The expansion of a form. -/
theorem expandFully : Expands (SmallLisp.expandFully here d) :=
  expandFullyWith (expandOnceWith fun hf h => apply hf h)

end Makes

end SmallLisp
