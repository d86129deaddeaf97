import SmallLisp.Analysis
import SmallLisp.Proofs.Evaluation.Lockstep

/-!
# Analysis in lockstep

In related worlds and under the same open scopes a form is analysed alike (`Lockstep.meaning`). The
expression that results is sound under the names of these scopes, and whatever the outcome the scopes
that are open afterwards are those that were open before. Only the bindings of a `let` add names to
the innermost scope (`Lockstep.bindings`), which is closed right after them.
-/

namespace SmallLisp.Lockstep

variable {here : Site} (L : Lockstep here) {α β : Type} {P : α → Prop} {Q : β → Prop}

/-- The worlds are related, and the open scopes are these on both desks. -/
def Desks (S : List Scope) (d e : Desk) : Prop := L.Rel d.world e.world ∧ d.scopes = S ∧ e.scopes = S

/-- The worlds are related, and the open scopes are these, with some innermost one before them. -/
def DesksOver (S : List Scope) (d e : Desk) : Prop := ∃ top, L.Desks (top :: S) d e

/-- The two computations go the same way under these scopes and leave them open, to a value of `P` if
they have one. -/
def Analyses (S : List Scope) (P : α → Prop) (a b : Analysis α) : Prop :=
  Together (L.Desks S) a b (fun x d e => P x ∧ L.Desks S d e) fun h d e =>
    L.Permits h ∧ L.Desks S d e

/-- The two analyzers go the same way on every form that may be used, under all scopes, to expressions
that are sound there. -/
def Analyzes (an an' : Analyzer) : Prop :=
  ∀ S v, L.Allows v → L.Analyses S (L.Sound S.flatten) (an v) (an' v)

variable {L} {S : List Scope}

namespace Analyses

theorem mono {P' : α → Prop} {a b : Analysis α} (h : L.Analyses S P a b) (hp : ∀ x, P x → P' x) :
    L.Analyses S P' a b :=
  Together.mono h (fun _ _ h => h) (fun x _ _ h => ⟨hp x h.1, h.2⟩) fun _ _ _ h => h

theorem pure {x : α} (h : P x) : L.Analyses S P (Pure.pure x) (Pure.pure x) :=
  Together.pure fun _ _ hr => ⟨h, hr⟩

theorem bind {a b : Analysis α} {f g : α → Analysis β} (h : L.Analyses S P a b)
    (hf : ∀ x, P x → L.Analyses S Q (f x) (g x)) : L.Analyses S Q (a >>= f) (b >>= g) :=
  Together.bind h fun x d e hx => hf x hx.1 d e hx.2

theorem act {a b : Action α} (h : L.Steps P a b) :
    L.Analyses S P (Analysis.act a) (Analysis.act b) := by
  rintro ⟨w, _⟩ ⟨u, _⟩ ⟨hr, rfl, rfl⟩
  have hab := h w u hr
  unfold Analysis.act
  dsimp only
  generalize a w = ra at *
  generalize b u = rb at *
  cases hab with
  | ok h => exact .ok ⟨h.1, h.2, rfl, rfl⟩
  | error h => exact .error ⟨h.1, h.2, rfl, rfl⟩
  | @outOfDepth w u _ h => exact .outOfDepth (t := ⟨u, _⟩) ⟨h.1, h.2, rfl, rfl⟩

theorem outOfDepth {b : Analysis α} : L.Analyses S P (Analysis.act Action.outOfDepth) b := by
  rintro ⟨w, _⟩ ⟨u, _⟩ ⟨hr, rfl, rfl⟩
  exact .outOfDepth (t := ⟨u, _⟩) ⟨permits_outOfDepth, hr, rfl, rfl⟩

theorem fail {fault : AnalysisFault} :
    L.Analyses S P (Analysis.fail fault) (Analysis.fail fault) :=
  act failAnalysis

/-- A symbol that is a local name stands in one of the scopes. -/
theorem isLocal (s : Symbol) :
    L.Analyses S (fun found => found = true → s ∈ S.flatten) (Analysis.isLocal s)
      (Analysis.isLocal s) := by
  rintro ⟨w, _⟩ ⟨u, _⟩ ⟨hr, rfl, rfl⟩
  refine .ok ⟨fun hfound => ?_, hr, rfl, rfl⟩
  obtain ⟨-, hany⟩ := Bool.and_eq_true_iff.mp hfound
  obtain ⟨names, hmem, hs⟩ := List.any_eq_true.mp hany
  exact List.mem_flatten.mpr ⟨names, hmem, by simpa using hs⟩

theorem forEach {f g : α → Analysis β} {as : List α}
    (h : ∀ a ∈ as, L.Analyses S Q (f a) (g a)) :
    L.Analyses S (fun bs => ∀ b ∈ bs, Q b) (Action.forEach f as) (Action.forEach g as) := by
  induction as with
  | nil => exact pure (by simp)
  | cons a as ih =>
    refine bind (h a (by simp)) fun b hb => ?_
    refine bind (ih fun a ha => h a (by simp [ha])) fun bs hbs => ?_
    exact pure (by simpa using ⟨hb, hbs⟩)

/-- A scope of its own is closed whatever happens in it, and whatever has been added to it. -/
theorem within {names : Scope} {a b : Analysis α}
    (h : Together (L.Desks (names :: S)) a b (fun x d e => P x ∧ L.DesksOver S d e) fun h d e =>
      L.Permits h ∧ L.DesksOver S d e) :
    L.Analyses S P (Analysis.within names a) (Analysis.within names b) := by
  have closed : ∀ d e : Desk, L.DesksOver S d e →
      L.Desks S { d with scopes := d.scopes.tail } { e with scopes := e.scopes.tail } := by
    rintro ⟨w, _⟩ ⟨u, _⟩ ⟨top, hr, rfl, rfl⟩
    exact ⟨hr, rfl, rfl⟩
  rintro ⟨w, _⟩ ⟨u, _⟩ ⟨hr, rfl, rfl⟩
  have hab := h ⟨w, names :: _⟩ ⟨u, names :: _⟩ ⟨hr, rfl, rfl⟩
  unfold Analysis.within
  dsimp only
  generalize a _ = ra at *
  generalize b _ = rb at *
  cases hab with
  | ok h => exact .ok ⟨h.1, closed _ _ h.2⟩
  | error h => exact .error ⟨h.1, closed _ _ h.2⟩
  | outOfDepth h => exact .outOfDepth ⟨h.1, closed _ _ h.2⟩

/-- What leaves the scopes as they are can stand in a scope of its own. -/
theorem inside {names : Scope} {a b : Analysis α} (h : L.Analyses (names :: S) P a b) :
    L.Analyses S P (Analysis.within names a) (Analysis.within names b) :=
  within (Together.mono h (fun _ _ h => h) (fun _ _ _ h => ⟨h.1, names, h.2⟩)
    fun _ _ _ h => ⟨h.1, names, h.2⟩)

end Analyses

open Analyses (act inside)

/-! ## Names -/

theorem internCore : L.Steps (fun n => L.mayUse (.ns n))
    (Action.update (·.internCore here.registry)) (Action.update (·.internCore here.registry)) :=
  update (L.internNamespace coreName)

theorem resolve (s : Symbol) :
    L.Steps L.MayRead (Analysis.resolve here s) (Analysis.resolve here s) := by
  refine bind (findVar_steps s) fun found hfound => ?_
  split
  · exact pure hfound
  · split
    · exact pure nofun
    · refine bind internCore fun core hcore => ?_
      exact view fun w u h => ⟨(L.findVarIn h core _ hcore).2, (L.findVarIn h core _ hcore).1⟩

theorem localSymbol (v : Value) :
    L.Runs (Analysis.localSymbol v) (Analysis.localSymbol v) := by
  unfold Analysis.localSymbol
  split
  · split
    · exact failAnalysis
    · exact pure trivial
  · exact failAnalysis

theorem symbol (s : Symbol) :
    L.Analyses S (L.Sound S.flatten) (Analysis.symbol here s) (Analysis.symbol here s) := by
  refine Analyses.bind (Analyses.isLocal s) fun found hfound => ?_
  split
  · rename_i h
    exact Analyses.pure (Expr.sound_localName.mpr fun _ => hfound h)
  · refine Analyses.bind (act (resolve s)) fun found hfound => ?_
    split
    · exact Analyses.pure (Expr.sound_root.mpr (hfound _ rfl))
    · exact Analyses.fail

/-- The var may be defined, and read. -/
def MayDefine (L : Lockstep here) (v : Var) : Prop := L.mayUse (.target v) ∧ L.mayUse (.var v)

theorem internVar_steps (s : Symbol) :
    L.Steps L.MayDefine (Action.attempt .intern (·.internVar here.registry s))
      (Action.attempt .intern (·.internVar here.registry s)) := by
  refine attempt nofun fun w u h => ?_
  obtain ⟨hv, he, hr⟩ := L.internVar s h
  exact ⟨⟨hv, fun _ _ _ => by simp⟩, he, hr⟩

/-- The var that a definition is for may be defined. -/
theorem target (form : SpecialForm) (v : Value) :
    L.Steps L.MayDefine (Analysis.target here form v) (Analysis.target here form v) := by
  unfold Analysis.target
  split
  · refine bind (attemptEval currentNamespace) fun current _ => ?_
    split
    · exact failAnalysis
    · exact bind (attemptEval (qualify _)) fun qualified _ => internVar_steps qualified
  · exact failAnalysis

theorem params (forms : List Value) :
    L.Runs (Analysis.params forms) (Analysis.params forms) := by
  induction forms with
  | nil => exact pure trivial
  | cons v vs ih =>
    simp only [Analysis.params]
    refine bind (localSymbol v) fun s _ => ?_
    split
    · split
      · exact failAnalysis
      · refine bind (localSymbol _) fun rest _ => ?_
        split
        · exact pure trivial
        · exact failAnalysis
    · exact bind ih fun names _ => pure trivial

/-! ## Special forms -/

variable {an an' : Analyzer} {args : List Value}

theorem body (h : L.Analyzes an an') {forms : List Value} (hf : L.AllowsAll forms) :
    L.Analyses S (L.Sound S.flatten) (Analysis.body an forms) (Analysis.body an' forms) := by
  refine Analyses.bind (Analyses.forEach fun v hv => h S v (hf v hv)) fun es hes => ?_
  split
  · exact Analyses.pure (hes _ (by simp))
  · exact Analyses.pure (Expr.sound_sequence.mpr hes)

/-- A function whose signature and body these are is sound. -/
def SoundFunction (L : Lockstep here) (S : List Scope) (f : Signature × Expr) : Prop :=
  L.Sound S.flatten (.function f.1 f.2)

theorem functionFrom (h : L.Analyzes an an') (name : Option Symbol) (ha : L.AllowsAll args) :
    L.Analyses S (L.SoundFunction S) (Analysis.functionFrom an name args)
      (Analysis.functionFrom an' name args) := by
  unfold Analysis.functionFrom
  split
  · refine Analyses.bind (act (params _)) fun p _ => ?_
    obtain ⟨names, rest⟩ := p
    refine Analyses.bind (inside (body h ha.tail)) fun e he => ?_
    exact Analyses.pure (Expr.soundIn_function.mpr he)
  · exact Analyses.fail

theorem function (h : L.Analyzes an an') (ha : L.AllowsAll args) :
    L.Analyses S (L.SoundFunction S) (Analysis.function an args) (Analysis.function an' args) := by
  unfold Analysis.function
  split
  · exact Analyses.bind (act (localSymbol _)) fun name _ => functionFrom h _ ha.tail
  · exact functionFrom h _ ha

/-- Bindings add their names to the innermost scope, and stand around every body that is sound
under these names. -/
theorem bindings (h : L.Analyzes an an') {pairs : List (Value × Value)}
    (hp : Value.EntriesWithin L.mayUse pairs) (top : Scope) :
    Together (L.Desks (top :: S)) (Analysis.bindings an pairs) (Analysis.bindings an' pairs)
      (fun bound d e =>
        (∀ body, L.Sound ((bound.map Prod.fst).reverse ++ top ++ S.flatten) body →
          L.Sound (top ++ S.flatten) (.bind bound body)) ∧
        L.Desks (((bound.map Prod.fst).reverse ++ top) :: S) d e)
      fun h d e => L.Permits h ∧ L.DesksOver S d e := by
  have outside : ∀ {top h d e}, L.Permits h ∧ L.Desks (top :: S) d e →
      L.Permits h ∧ L.DesksOver S d e := fun h => ⟨h.1, _, h.2⟩
  induction pairs generalizing top with
  | nil => exact Together.pure fun d e hd => ⟨fun body hb => Expr.sound_bind_nil.mpr hb, hd⟩
  | cons pair pairs ih =>
    obtain ⟨name, init⟩ := pair
    obtain ⟨hinit, hrest⟩ := List.forall_mem_cons.mp hp
    have hname := act (S := top :: S) (localSymbol (L := L) name)
    refine Together.bind (Together.mono hname (fun _ _ h => h) (fun _ _ _ h => h.2)
      fun _ _ _ => outside) fun s => ?_
    refine Together.bind (Together.mono (h (top :: S) init hinit.2) (fun _ _ h => h)
      (fun _ _ _ h => h) fun _ _ _ => outside) fun init => ?_
    have hdeclare : Together (fun d e => L.Sound (top :: S).flatten init ∧ L.Desks (top :: S) d e)
        (Analysis.declare s) (Analysis.declare s)
        (fun _ d e => L.Sound (top :: S).flatten init ∧ L.Desks ((s :: top) :: S) d e)
        fun h d e => L.Permits h ∧ L.DesksOver S d e := by
      rintro ⟨w, _⟩ ⟨u, _⟩ ⟨hi, hr, rfl, rfl⟩
      exact .ok ⟨hi, hr, rfl, rfl⟩
    refine Together.bind hdeclare fun _ d e hd => ?_
    obtain ⟨hi, hd⟩ := hd
    refine Together.bind (ih hrest (s :: top)) (fun bound => Together.pure fun d e hb => ?_) d e hd
    simp only [List.map_cons, List.reverse_cons, List.append_assoc, List.cons_append,
      List.nil_append] at hb ⊢
    exact ⟨fun body hbody => Expr.soundIn_bind_cons.mpr ⟨hi, hb.1 body hbody⟩, hb.2⟩

theorem bind_form (h : L.Analyzes an an') (ha : L.AllowsAll args) :
    L.Analyses S (L.Sound S.flatten) (Analysis.bind an args) (Analysis.bind an' args) := by
  unfold Analysis.bind
  split
  · split
    · have hforms := Value.entriesWithin_pairUp (Value.within_vector.mp ha.head)
      refine Analyses.within (Together.bind (bindings h hforms []) fun bound d e hd => ?_)
      obtain ⟨hbound, hd⟩ := hd
      simp only [List.append_nil, List.nil_append] at hbound hd
      refine Together.mono (Analyses.bind (body h ha.tail) fun e he => ?_) (fun _ _ h => h)
        (fun x _ _ hx => ⟨hx.1, _, hx.2⟩) (fun _ _ _ hx => ⟨hx.1, _, hx.2⟩) d e hd
      exact Analyses.pure (P := fun x => L.Sound S.flatten x) (hbound e he)
    · exact Analyses.fail
  · exact Analyses.fail

theorem define (h : L.Analyzes an an') (ha : L.AllowsAll args) :
    L.Analyses S (L.Sound S.flatten) (Analysis.define here an args)
      (Analysis.define here an' args) := by
  unfold Analysis.define
  split
  · refine Analyses.bind (act (target _ _)) fun v hv => ?_
    exact Analyses.pure (Expr.sound_define.mpr ⟨hv.1, hv.2, nofun⟩)
  · refine Analyses.bind (act (target _ _)) fun v hv => ?_
    refine Analyses.bind (h S _ ha.tail.head) fun e he => ?_
    exact Analyses.pure (Expr.sound_define.mpr ⟨hv.1, hv.2, by rintro _ ⟨⟩; exact he⟩)
  · refine Analyses.bind (act (target _ _)) fun v hv => ?_
    refine Analyses.bind (h S _ ha.tail.tail.head) fun e he => ?_
    exact Analyses.pure (Expr.sound_define.mpr ⟨hv.1, hv.2, by rintro _ ⟨⟩; exact he⟩)
  · exact Analyses.fail

theorem markMetadata :
    L.Steps L.Allows (Analysis.markMetadata here) (Analysis.markMetadata here) :=
  bind markKey fun _ hk => newMap (List.forall_mem_singleton.mpr ⟨hk, allows_plain rfl⟩)

/-- The parameters that every macro has refer to nothing. -/
theorem macroParams_allowed {id : ObjectId} {own : List Value} (h : L.Allows (.vector id own)) :
    L.Allows (.vector id (Analysis.macroParams ++ own)) := by
  refine Value.within_vector.mpr fun v hv => ?_
  obtain hv | hv := List.mem_append.mp hv
  · obtain rfl | rfl : v = _ ∨ v = _ := by simpa [Analysis.macroParams] using hv
    · exact allows_plain rfl
    · exact allows_plain rfl
  · exact Value.within_vector.mp h v hv

theorem defineMacro (h : L.Analyzes an an') (ha : L.AllowsAll args) :
    L.Analyses S (L.Sound S.flatten) (Analysis.defineMacro here an args)
      (Analysis.defineMacro here an' args) := by
  unfold Analysis.defineMacro
  split
  · refine Analyses.bind (act (target _ _)) fun v hv => ?_
    have hargs := AllowsAll.cons (macroParams_allowed ha.tail.head) ha.tail.tail
    refine Analyses.bind (functionFrom h none hargs) fun f hf => ?_
    refine Analyses.bind (act markMetadata) fun metadata _ => ?_
    exact Analyses.pure (Expr.sound_define.mpr ⟨hv.1, hv.2, by rintro _ ⟨⟩; exact hf⟩)
  · exact Analyses.fail
  · exact Analyses.fail

theorem branch (h : L.Analyzes an an') (ha : L.AllowsAll args) :
    L.Analyses S (L.Sound S.flatten) (Analysis.branch an args) (Analysis.branch an' args) := by
  unfold Analysis.branch
  split
  · refine Analyses.bind (h S _ ha.head) fun test htest => ?_
    refine Analyses.bind (h S _ ha.tail.head) fun yes hyes => ?_
    exact Analyses.pure (Expr.sound_branch.mpr ⟨htest, hyes, nofun⟩)
  · refine Analyses.bind (h S _ ha.head) fun test htest => ?_
    refine Analyses.bind (h S _ ha.tail.head) fun yes hyes => ?_
    refine Analyses.bind (h S _ ha.tail.tail.head) fun no hno => ?_
    exact Analyses.pure (Expr.sound_branch.mpr ⟨htest, hyes, by rintro _ ⟨⟩; exact hno⟩)
  · exact Analyses.fail

theorem theVar (args : List Value) :
    L.Steps (L.Sound S.flatten) (Analysis.theVar here args) (Analysis.theVar here args) := by
  unfold Analysis.theVar
  split
  · refine bind (resolve _) fun found hfound => ?_
    split
    · exact pure (Expr.sound_theVar.mpr (hfound _ rfl))
    · exact failAnalysis
  · exact failAnalysis
  · exact failAnalysis

theorem special (h : L.Analyzes an an') (form : SpecialForm) (ha : L.AllowsAll args) :
    L.Analyses S (L.Sound S.flatten) (Analysis.special here an form args)
      (Analysis.special here an' form args) := by
  unfold Analysis.special
  cases form with
  | quote =>
    dsimp only
    split
    · exact Analyses.pure (Expr.sound_const.mpr ha.head)
    · exact Analyses.fail
  | define => exact define h ha
  | defineMacro => exact defineMacro h ha
  | branch => exact branch h ha
  | sequence => exact body h ha
  | bind => exact bind_form h ha
  | function => exact Analyses.bind (function h ha) fun f hf => Analyses.pure hf
  | theVar => exact act (theVar args)

/-! ## Lists -/

theorem calledMacro (head : Symbol) :
    L.Runs (Analysis.calledMacro? here head) (Analysis.calledMacro? here head) := by
  refine bind (resolve head).runs fun found _ => ?_
  split
  · exact pure trivial
  · rename_i v
    refine bind markKey fun key _ => ?_
    refine bind (hasFlag v key) fun flag _ => ?_
    split <;> exact pure trivial

theorem globalKind (head : Symbol) :
    L.Runs (Analysis.globalKind here head) (Analysis.globalKind here head) := by
  unfold Analysis.globalKind
  split
  · exact pure trivial
  · refine bind (calledMacro head) fun found _ => ?_
    split <;> exact pure trivial

theorem kind (head : Symbol) :
    L.Analyses S (fun _ => True) (Analysis.kind here head) (Analysis.kind here head) := by
  refine Analyses.bind (Analyses.isLocal head) fun found _ => ?_
  split
  · exact Analyses.pure trivial
  · exact act (globalKind head)

theorem expansion {expand expand' : Value → Action Value}
    (h : L.Expands expand expand') (v : Var) (head : Symbol) {form : Value} (hform : L.Allows form)
    (ha : L.AllowsAll args) :
    L.Steps L.Allows (Analysis.expansion expand v head form args)
      (Analysis.expansion expand' v head form args) := by
  have named : L.Steps L.Allows (Analysis.namedCall v head form args)
      (Analysis.namedCall v head form args) := by
    unfold Analysis.namedCall
    split
    · exact pure hform
    · exact newList (AllowsAll.cons (allows_plain rfl) ha)
  exact bind named fun form hform => h form hform

theorem call_form (h : L.Analyzes an an') {head : Value} (hh : L.Allows head)
    (ha : L.AllowsAll args) :
    L.Analyses S (L.Sound S.flatten) (Analysis.call an head args)
      (Analysis.call an' head args) := by
  refine Analyses.bind (h S head hh) fun callee hcallee => ?_
  refine Analyses.bind (Analyses.forEach fun v hv => h S v (ha v hv)) fun es hes => ?_
  exact Analyses.pure (Expr.sound_call.mpr ⟨hcallee, hes⟩)

theorem entry (h : L.Analyzes an an') {e : Value × Value} (hk : L.Allows e.1)
    (hv : L.Allows e.2) :
    L.Analyses S (fun p => L.Sound S.flatten p.1 ∧ L.Sound S.flatten p.2) (Analysis.entry an e)
      (Analysis.entry an' e) := by
  refine Analyses.bind (h S e.1 hk) fun k hk => ?_
  exact Analyses.bind (h S e.2 hv) fun v hv => Analyses.pure ⟨hk, hv⟩

/-! ## Forms -/

theorem form (h : L.Analyzes an an') {expand expand' : Value → Action Value}
    (hx : L.Expands expand expand') :
    L.Analyzes (Analysis.form here an expand) (Analysis.form here an' expand') := by
  intro S v hv
  unfold Analysis.form
  split
  · exact symbol _
  · have hargs := AllowsAll.tail (Value.within_list.mp hv)
    refine Analyses.bind (kind _) fun kind _ => ?_
    split
    · exact special h _ hargs
    · exact Analyses.bind (act (expansion hx _ _ hv hargs)) fun expanded he => h S expanded he
    · exact call_form h (allows_plain rfl) hargs
  · have hitems := Value.within_list.mp hv
    exact call_form h (AllowsAll.head hitems) (AllowsAll.tail hitems)
  · have hitems := Value.within_vector.mp hv
    refine Analyses.bind (Analyses.forEach fun v hv => h S v (hitems v hv)) fun es hes => ?_
    exact Analyses.pure (Expr.sound_vector.mpr hes)
  · have hentries := Value.within_map.mp hv
    refine Analyses.bind (Analyses.forEach fun e he => entry h (hentries e he).1 (hentries e he).2)
      fun es hes => ?_
    exact Analyses.pure (Expr.sound_map.mpr hes)
  · exact Analyses.pure (Expr.sound_const.mpr hv)

/-- A form is analysed alike under the same scopes, if with more depth, to a sound expression, and
the scopes are left as they were. -/
theorem meaning {d d' : Nat} (h : d ≤ d') :
    L.Analyzes (Analysis.meaning here d) (Analysis.meaning here d') := by
  induction d generalizing d' with
  | zero => exact fun S v _ => Analyses.outOfDepth
  | succ d ih =>
    obtain ⟨d'', rfl⟩ : ∃ d'', d' = d'' + 1 := ⟨d' - 1, by omega⟩
    have h := Nat.le_of_succ_le_succ h
    exact form (ih h) (expandFully h)

/-- An analysis in scopes that it leaves as they were is an action. -/
theorem inScopes {a b : Analysis α} (h : L.Analyses S P a b) :
    L.Steps (fun r => P r.1 ∧ r.2 = S) (a.inScopes S) (b.inScopes S) := by
  intro w u hr
  have hab := h ⟨w, S⟩ ⟨u, S⟩ ⟨hr, rfl, rfl⟩
  unfold Analysis.inScopes
  generalize a ⟨w, S⟩ = ra at *
  generalize b ⟨u, S⟩ = rb at *
  cases hab with
  | ok h =>
    obtain ⟨hp, hr, hs, ht⟩ := h
    dsimp only
    rw [hs, ht]
    exact .ok ⟨⟨hp, rfl⟩, hr⟩
  | error h => exact .error ⟨h.1, h.2.1⟩
  | outOfDepth h => exact .outOfDepth ⟨h.1, h.2.1⟩

/-- A form is analysed alike, to a sound expression. -/
theorem analyze {d d' : Nat} (h : d ≤ d') (S : List Scope) {v : Value} (hv : L.Allows v) :
    L.Steps (L.Sound S.flatten) (SmallLisp.analyze here d S v) (SmallLisp.analyze here d' S v) :=
  map ((inScopes (meaning h S v hv)).mono fun _ hr => hr.1)

end SmallLisp.Lockstep
