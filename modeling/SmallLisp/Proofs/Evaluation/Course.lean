import SmallLisp.Evaluation
import SmallLisp.Proofs.Action.Course

/-!
# Evaluations are made of deeds

Native functions, expansions, evaluations and calls are made of deeds (`OfDeeds.evaluate`, `OfDeeds.apply`):
whatever a program does to the world, it does by deeds of its own thread in its own registry. The induction is
on the depth, with one case for each kind of expression.
-/

namespace SmallLisp.OfDeeds

variable {here : Site} {α β : Type}

/-! ## Native functions -/

theorem one (f : Native) (args : List Value) : OfDeeds here (Native.one f args) := by
  unfold Native.one
  split
  · exact pure _
  · exact failEval _

theorem two (f : Native) (args : List Value) : OfDeeds here (Native.two f args) := by
  unfold Native.two
  split
  · exact pure _
  · exact failEval _

theorem pureResult (r : Except EvalFault Value) : OfDeeds here (Native.pureResult r) := by
  cases r with
  | ok v => exact pure v
  | error fault => exact failEval fault

theorem elements (v : Value) : OfDeeds here v.elements := by
  unfold Value.elements
  split
  · exact pure _
  · exact pure _
  · exact pure _
  · exact map (forEach (fun _ => newVector _) _)
  · exact map (forEach (fun _ => newString _) _)
  · exact pure _

theorem sequence (f : Native) (v : Value) : OfDeeds here (Native.sequence f v) := by
  refine (elements v).bind fun items => ?_
  cases items with
  | some items => exact pure items
  | none => exact failEval _

theorem listOrNil (f : Native) (v : Value) : OfDeeds here (Native.listOrNil f v) := by
  refine (sequence f v).bind fun items => ?_
  split
  · exact pure _
  · exact newList _

theorem size (v : Value) : OfDeeds here (Native.size v) := by
  unfold Native.size
  split
  · exact pure _
  · exact pure _
  · exact pure _
  · exact pure _
  · exact (sequence _ v).bind fun _ => pure _

theorem getFrom (args : List Value) : OfDeeds here (Native.getFrom args) := by
  unfold Native.getFrom
  split
  · exact pure _
  · exact pure _
  · exact failEval _

theorem freshSymbol (stem : String) : OfDeeds here (Native.freshSymbol stem) :=
  (update (.uniqueName stem) fun _ => rfl).bind fun _ => pure _

/-- A native function does its deeds and those of the expansions that it is handed. -/
theorem call {expander : Expander} (honce : ∀ form, OfDeeds here (expander.once form))
    (hfully : ∀ form, OfDeeds here (expander.fully form)) (f : Native) (args : List Value) :
    OfDeeds here (Native.call expander here f args) := by
  cases f with
  | inNs =>
    refine (one _ args).bind fun v => ?_
    split
    · exact (update (.switchNamespace _) fun _ => rfl).bind fun _ => pure _
    · exact failEval _
  | assert =>
    simp only [Native.call]
    split
    · exact pure _
    · exact fail _
  | seq =>
    refine (one _ args).bind fun v => ?_
    split
    · exact pure _
    · exact listOrNil _ _
  | freshSeq => exact (one _ args).bind fun v => listOrNil _ v
  | add | subtract | multiply | divide | less | greater | atMost | atLeast | symbol => exact pureResult _
  | equal =>
    simp only [Native.call]
    split
    · exact failEval _
    · exact pure _
  | not => exact (one _ args).bind fun _ => pure _
  | isNil =>
    refine (one _ args).bind fun v => ?_
    split
    · exact pure _
    · exact pure _
  | identical => exact (two _ args).bind fun _ => pure _
  | list => exact newList args
  | cons => exact (two _ args).bind fun p => (sequence _ p.2).bind fun items => newList _
  | first => exact (one _ args).bind fun v => (sequence _ v).bind fun _ => pure _
  | rest => exact (one _ args).bind fun v => (sequence _ v).bind fun _ => newList _
  | count => exact (one _ args).bind fun v => (size v).bind fun _ => pure _
  | vector => exact newVector args
  | hashMap =>
    simp only [Native.call]
    split
    · exact newMap _
    · exact failEval _
  | get => exact getFrom args
  | str => exact newString _
  | keyword =>
    simp only [Native.call]
    split
    · exact (internKeyword _).bind fun _ => pure _
    · exact failEval _
  | print | println => exact (OfDeeds.print _).bind fun _ => pure _
  | gensym =>
    simp only [Native.call]
    split
    · exact freshSymbol _
    · split
      · exact freshSymbol _
      · exact failEval _
    · exact failEval _
  | expandOnce => exact (one _ args).bind fun v => honce v
  | expandFully => exact (one _ args).bind fun v => hfully v

/-! ## Expansion -/

theorem markKey : OfDeeds here (SmallLisp.markKey here) := (internKeyword _).bind fun _ => pure _

theorem macroVar (head : Symbol) : OfDeeds here (macroVar? here head) := by
  refine (findVar head).bind fun found => ?_
  cases found with
  | none => exact pure _
  | some v =>
    refine (view _).bind fun bare => ?_
    split
    · exact pure _
    · refine markKey.bind fun key => (view _).bind fun flag => ?_
      split
      · exact pure _
      · exact pure _

theorem expandOnceWith {ap : Value → List Value → Action Value} (h : ∀ f args, OfDeeds here (ap f args))
    (form : Value) : OfDeeds here (SmallLisp.expandOnceWith ap here form) := by
  unfold SmallLisp.expandOnceWith
  split
  · refine (macroVar _).bind fun found => ?_
    cases found with
    | none => exact pure _
    | some v =>
      refine (view _).bind fun root => ?_
      cases root with
      | none => exact failEval _
      | some expander => exact h _ _
  · exact pure _

theorem expandWithin {once : Value → Action Value} (h : ∀ form, OfDeeds here (once form)) (whole : Value)
    (limit left : Nat) (form : Value) : OfDeeds here (SmallLisp.expandWithin once whole limit left form) := by
  induction left generalizing form with
  | zero =>
    refine (h form).bind fun expanded => ?_
    split
    · exact pure _
    · exact fail _
  | succ left ih =>
    refine (h form).bind fun expanded => ?_
    split
    · exact pure _
    · exact ih expanded

theorem expandFullyWith {once : Value → Action Value} (h : ∀ form, OfDeeds here (once form)) (form : Value) :
    OfDeeds here (SmallLisp.expandFullyWith once here form) :=
  (view _).bind fun limit => expandWithin h form limit limit form

/-! ## Expressions and calls -/

theorem lookupCall (f : Value) (find : Value → Option Value) (args : List Value) :
    OfDeeds here (SmallLisp.lookupCall f find args) := by
  unfold SmallLisp.lookupCall
  split
  · exact pure _
  · exact pure _
  · exact failEval _

theorem furtherArgs (s : Signature) (args : List Value) : OfDeeds here (SmallLisp.furtherArgs s args) := by
  unfold SmallLisp.furtherArgs
  split
  · exact pure _
  · exact pure _
  · exact newList _

variable {d : Nat}

theorem evaluate_define (he : ∀ locals e, OfDeeds here (SmallLisp.evaluate here d locals e)) (locals : Locals)
    (v : Var) (value : Option Expr) (metadata : Option Value) :
    OfDeeds here (SmallLisp.evaluate here (d + 1) locals (.define v value metadata)) := by
  -- A definition binds its var, if it has a value, and then marks it, if it has metadata.
  have bound : ∀ (e : Expr) {rest : Action Value}, OfDeeds here rest →
      OfDeeds here (do
        let x ← SmallLisp.evaluate here d locals e
        Action.change (·.setRoot v x)
        rest) := fun e _ hrest =>
    (he locals e).bind fun x => (change (.setRoot v x) fun _ => rfl).bind fun _ => hrest
  simp only [SmallLisp.evaluate]
  cases metadata with
  | none =>
    cases value with
    | none => exact pure _
    | some e => exact bound e (pure _)
  | some m =>
    have marked : OfDeeds here (do
        Action.change (·.setMetadata v m)
        Pure.pure (Value.var v)) := (change (.setMetadata v m) fun _ => rfl).bind fun _ => pure _
    cases value with
    | none => exact marked
    | some e => exact bound e marked

theorem evaluate_step (he : ∀ locals e, OfDeeds here (SmallLisp.evaluate here d locals e))
    (ha : ∀ f args, OfDeeds here (SmallLisp.apply here d f args)) (locals : Locals) (e : Expr) :
    OfDeeds here (SmallLisp.evaluate here (d + 1) locals e) := by
  cases e with
  | const v =>
    simp only [SmallLisp.evaluate]
    exact pure v
  | root v =>
    simp only [SmallLisp.evaluate]
    refine (view _).bind fun root => ?_
    cases root with
    | some x => exact pure x
    | none => exact failEval _
  | localName s =>
    simp only [SmallLisp.evaluate]
    split
    · exact pure _
    · exact failEval _
  | define v value metadata => exact evaluate_define he locals v value metadata
  | branch test yes no =>
    simp only [SmallLisp.evaluate]
    refine (he locals test).bind fun x => ?_
    split
    · exact he locals yes
    · cases no with
      | some no => exact he locals no
      | none => exact pure _
  | sequence es =>
    simp only [SmallLisp.evaluate]
    exact (forEach (he locals) es).bind fun _ => pure _
  | bind bindings body =>
    simp only [SmallLisp.evaluate]
    refine (foldlM (fun scope binding => ?_) locals bindings).bind fun scope => he scope body
    exact (he scope binding.2).bind fun _ => pure _
  | function signature body =>
    simp only [SmallLisp.evaluate]
    exact (update (.newFunction ⟨signature, body, locals⟩) fun _ => rfl).bind fun _ => pure _
  | call callee args =>
    simp only [SmallLisp.evaluate]
    exact (he locals callee).bind fun f => (forEach (he locals) args).bind fun values => ha f values
  | vector items =>
    simp only [SmallLisp.evaluate]
    exact (forEach (he locals) items).bind fun _ => newVector _
  | map entries =>
    simp only [SmallLisp.evaluate]
    exact (forEach (fun entry => (he locals entry.1).bind fun _ => (he locals entry.2).bind fun _ => pure _)
      entries).bind fun _ => newMap _
  | theVar v =>
    simp only [SmallLisp.evaluate]
    exact pure _

theorem apply_step (he : ∀ locals e, OfDeeds here (SmallLisp.evaluate here d locals e))
    (ha : ∀ f args, OfDeeds here (SmallLisp.apply here d f args)) (f : Value) (args : List Value) :
    OfDeeds here (SmallLisp.apply here (d + 1) f args) := by
  have once := expandOnceWith ha
  cases f with
  | native native =>
    simp only [SmallLisp.apply]
    exact call once (expandFullyWith once) native args
  | function f =>
    simp only [SmallLisp.apply]
    refine (view _).bind fun closure => ?_
    split
    · exact (furtherArgs _ args).bind fun further => he _ _
    · exact failEval _
  | var v =>
    simp only [SmallLisp.apply]
    refine (view _).bind fun root => ?_
    cases root with
    | some x => exact ha x args
    | none => exact failEval _
  | keyword k =>
    simp only [SmallLisp.apply]
    exact lookupCall _ _ args
  | map id entries =>
    simp only [SmallLisp.apply]
    exact lookupCall _ _ args
  | _ =>
    simp only [SmallLisp.apply]
    exact failEval _

theorem evaluate_apply (d : Nat) : (∀ locals e, OfDeeds here (SmallLisp.evaluate here d locals e)) ∧
    ∀ f args, OfDeeds here (SmallLisp.apply here d f args) := by
  induction d with
  | zero =>
    refine ⟨fun locals e => ?_, fun f args => ?_⟩
    · simp only [SmallLisp.evaluate]
      exact throw _
    · simp only [SmallLisp.apply]
      exact throw _
  | succ d ih => exact ⟨evaluate_step ih.1 ih.2, apply_step ih.1 ih.2⟩

theorem evaluate (d : Nat) (locals : Locals) (e : Expr) : OfDeeds here (SmallLisp.evaluate here d locals e) :=
  (evaluate_apply d).1 locals e

theorem apply (d : Nat) (f : Value) (args : List Value) : OfDeeds here (SmallLisp.apply here d f args) :=
  (evaluate_apply d).2 f args

theorem expandOnce (d : Nat) (form : Value) : OfDeeds here (SmallLisp.expandOnce here d form) :=
  expandOnceWith (apply d) form

theorem expandFully (d : Nat) (form : Value) : OfDeeds here (SmallLisp.expandFully here d form) :=
  expandFullyWith (expandOnce d) form

end SmallLisp.OfDeeds
