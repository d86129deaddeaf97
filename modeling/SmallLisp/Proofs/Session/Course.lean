import SmallLisp.Proofs.Action.Run
import SmallLisp.Proofs.Evaluation.Course
import SmallLisp.Session

/-!
# Texts are read, analysed and evaluated by deeds

The analysis of a form, the reading of the next one and the evaluation of a text are made of deeds as well
(`OfDeeds.meaning`, `OfDeeds.take`, `OfDeeds.evalText`). Scopes are the business of the analysis alone: an
analysis is made of deeds under whatever scopes are open (`OfDeedsIn`).
-/

namespace SmallLisp

variable {here : Site} {α β : Type}

/-- Under whatever scopes are open, the analysis is made of deeds. -/
def OfDeedsIn (here : Site) (a : Analysis α) : Prop := ∀ S, OfDeeds here (a.inScopes S)

namespace OfDeedsIn

theorem pure (x : α) : OfDeedsIn here (Pure.pure x) := fun S => OfDeeds.pure (x, S)

theorem act {a : Action α} (h : OfDeeds here a) : OfDeedsIn here (Analysis.act a) := by
  intro S
  have heq : (Analysis.act a).inScopes S = (fun x => (x, S)) <$> a := by
    funext w
    cases ha : a w with
    | ok x u => rw [Analysis.inScopes_of_ok (Analysis.act_of_ok ha), run_map_of_ok ha]
    | error e u =>
      have hact : Analysis.act a ⟨w, S⟩ = .error e ⟨u, S⟩ := by
        unfold Analysis.act
        dsimp only
        rw [ha]
      rw [Analysis.inScopes_of_error hact, run_map_of_error ha]
  rw [heq]
  exact h.map

theorem fail (fault : AnalysisFault) : OfDeedsIn here (Analysis.fail fault : Analysis α) :=
  act (OfDeeds.failAnalysis fault)

theorem bind {a : Analysis α} {f : α → Analysis β} (h : OfDeedsIn here a) (hf : ∀ x, OfDeedsIn here (f x)) :
    OfDeedsIn here (a >>= f) := by
  intro S
  have heq : (a >>= f).inScopes S = a.inScopes S >>= fun p => (f p.1).inScopes p.2 := by
    funext w
    cases ha : a ⟨w, S⟩ with
    | ok x d =>
      rw [run_bind_of_ok (Analysis.inScopes_of_ok ha)]
      unfold Analysis.inScopes
      rw [run_bind_of_ok ha]
    | error e d => rw [run_bind_of_error (Analysis.inScopes_of_error ha), Analysis.inScopes_of_error (run_bind_of_error ha)]
  rw [heq]
  exact (h S).bind fun p => hf p.1 p.2

theorem isLocal (s : Symbol) : OfDeedsIn here (Analysis.isLocal s) := fun S =>
  OfDeeds.pure (!s.isQualified && S.any (·.contains s), S)

theorem declare (s : Symbol) : OfDeedsIn here (Analysis.declare s) := by
  intro S
  cases S with
  | nil => exact OfDeeds.pure ((), [])
  | cons names outer => exact OfDeeds.pure ((), (s :: names) :: outer)

/-- A scope of its own is closed again. -/
theorem within (names : Scope) {a : Analysis α} (h : OfDeedsIn here a) :
    OfDeedsIn here (Analysis.within names a) := by
  intro S
  have heq : (Analysis.within names a).inScopes S =
      (fun p => (p.1, p.2.tail)) <$> a.inScopes (names :: S) := by
    funext w
    unfold Analysis.within
    cases ha : a ⟨w, names :: S⟩ with
    | ok x d =>
      rw [run_map_of_ok (Analysis.inScopes_of_ok ha)]
      unfold Analysis.inScopes
      dsimp only
      rw [ha]
    | error e d =>
      rw [run_map_of_error (Analysis.inScopes_of_error ha)]
      unfold Analysis.inScopes
      dsimp only
      rw [ha]
  rw [heq]
  exact (h (names :: S)).map

theorem forEach {f : α → Analysis β} (h : ∀ x, OfDeedsIn here (f x)) (xs : List α) :
    OfDeedsIn here (Action.forEach f xs) := by
  induction xs with
  | nil => exact pure []
  | cons x xs ih => exact (h x).bind fun y => ih.bind fun ys => pure (y :: ys)

end OfDeedsIn

/-! ## Reading by steps -/

namespace Reader

/-- A keyword is supplied, if there is one. -/
def supplyKeyword (frames : List Frame) : Except Error Keyword → Action ReadStep
  | .ok k => Action.update (supply · (.keyword k) frames)
  | .error e => pure (.refused e (depth frames))

/-- The reading of the next form, with forms open. -/
def reading (here : Site) (frames : List Frame) (lexemes : List Lexeme) :
    Action (Option (Except Error Value) × List Lexeme) :=
  Action.update fun w =>
    let reading := readFrom w here frames lexemes
    ((reading.result, reading.rest), reading.world)

/-- What is read after a step. -/
def goOn (here : Site) (lexemes : List Lexeme) : ReadStep → Action (Option (Except Error Value) × List Lexeme)
  | .form v => pure (some (.ok v), lexemes)
  | .pending frames => reading here frames lexemes
  | .refused e depth => pure (some (.error e), recover depth lexemes)

end Reader

namespace OfDeeds

/-! ## Analysis -/

theorem internCore : OfDeeds here (Action.update (·.internCore here.registry)) :=
  update (.internNamespace coreName) fun _ => rfl

theorem resolve (s : Symbol) : OfDeeds here (Analysis.resolve here s) := by
  refine (findVar s).bind fun found => ?_
  cases found with
  | some v => exact pure _
  | none =>
    dsimp only
    split
    · exact pure _
    · exact internCore.bind fun core => view _

theorem localSymbol (v : Value) : OfDeeds here (Analysis.localSymbol v) := by
  unfold Analysis.localSymbol
  split
  · split
    · exact failAnalysis _
    · exact pure _
  · exact failAnalysis _

theorem target (form : SpecialForm) (v : Value) : OfDeeds here (Analysis.target here form v) := by
  unfold Analysis.target
  split
  · refine bind (attempt .threadState fun w => rfl) fun current => ?_
    split
    · exact failAnalysis _
    · exact (qualify _).bind fun s => attempt (.internVar s) fun w => rfl
  · exact failAnalysis _

theorem params (forms : List Value) : OfDeeds here (Analysis.params forms) := by
  induction forms with
  | nil => exact pure _
  | cons v vs ih =>
    unfold Analysis.params
    refine (localSymbol v).bind fun s => ?_
    split
    · split
      · exact failAnalysis _
      · refine (localSymbol _).bind fun rest => ?_
        split
        · exact pure _
        · exact failAnalysis _
    · exact ih.bind fun _ => pure _

theorem theVar (args : List Value) : OfDeeds here (Analysis.theVar here args) := by
  unfold Analysis.theVar
  split
  · refine (resolve _).bind fun found => ?_
    split
    · exact pure _
    · exact failAnalysis _
  · exact failAnalysis _
  · exact failAnalysis _

theorem globalKind (head : Symbol) : OfDeeds here (Analysis.globalKind here head) := by
  unfold Analysis.globalKind
  split
  · exact pure _
  · refine bind ((resolve head).bind fun found => ?_) fun called => ?_
    · split
      · exact pure _
      · refine markKey.bind fun key => (view _).bind fun flag => ?_
        split
        · exact pure _
        · exact pure _
    · split
      · exact pure _
      · exact pure _

theorem expansion {expand : Value → Action Value} (h : ∀ form, OfDeeds here (expand form)) (v : Var)
    (head : Symbol) (form : Value) (args : List Value) :
    OfDeeds here (Analysis.expansion expand v head form args) := by
  refine bind ?_ fun named => h named
  unfold Analysis.namedCall
  split
  · exact pure _
  · exact newList _

end OfDeeds

namespace OfDeedsIn

variable {an : Analyzer}

theorem symbol (s : Symbol) : OfDeedsIn here (Analysis.symbol here s) := by
  refine (isLocal s).bind fun found => ?_
  split
  · exact pure _
  · refine (act (OfDeeds.resolve s)).bind fun var => ?_
    split
    · exact pure _
    · exact fail _

theorem kind (head : Symbol) : OfDeedsIn here (Analysis.kind here head) := by
  refine (isLocal head).bind fun found => ?_
  split
  · exact pure _
  · exact act (OfDeeds.globalKind head)

section

variable (h : ∀ v, OfDeedsIn here (an v))
include h

theorem body (forms : List Value) : OfDeedsIn here (Analysis.body an forms) := by
  refine (forEach h forms).bind fun exprs => ?_
  split
  · exact pure _
  · exact pure _

theorem functionFrom (name : Option Symbol) (args : List Value) :
    OfDeedsIn here (Analysis.functionFrom an name args) := by
  unfold Analysis.functionFrom
  split
  · refine (act (OfDeeds.params _)).bind fun names => ?_
    exact (within _ (body h _)).bind fun _ => pure _
  · exact fail _

theorem function (args : List Value) : OfDeedsIn here (Analysis.function an args) := by
  unfold Analysis.function
  split
  · exact (act (OfDeeds.localSymbol _)).bind fun name => functionFrom h _ _
  · exact functionFrom h _ _

theorem bindings (pairs : List (Value × Value)) : OfDeedsIn here (Analysis.bindings an pairs) := by
  induction pairs with
  | nil => exact pure _
  | cons pair pairs ih =>
    refine (act (OfDeeds.localSymbol pair.1)).bind fun s => (h pair.2).bind fun e => ?_
    exact (declare s).bind fun _ => ih.bind fun _ => pure _

theorem define (args : List Value) : OfDeedsIn here (Analysis.define here an args) := by
  unfold Analysis.define
  split
  · exact (act (OfDeeds.target _ _)).bind fun _ => pure _
  · exact (act (OfDeeds.target _ _)).bind fun v => (h _).bind fun _ => pure _
  · exact (act (OfDeeds.target _ _)).bind fun v => (h _).bind fun _ => pure _
  · exact fail _

theorem defineMacro (args : List Value) : OfDeedsIn here (Analysis.defineMacro here an args) := by
  unfold Analysis.defineMacro
  split
  · refine (act (OfDeeds.target _ _)).bind fun v => (functionFrom h none _).bind fun f => ?_
    exact (act (OfDeeds.markKey.bind fun key => OfDeeds.newMap _)).bind fun _ => pure _
  · exact fail _
  · exact fail _

theorem branch (args : List Value) : OfDeedsIn here (Analysis.branch an args) := by
  unfold Analysis.branch
  split
  · exact (h _).bind fun test => (h _).bind fun _ => pure _
  · exact (h _).bind fun test => (h _).bind fun yes => (h _).bind fun _ => pure _
  · exact fail _

theorem bind_form (args : List Value) : OfDeedsIn here (Analysis.bind an args) := by
  unfold Analysis.bind
  split
  · split
    · exact within [] ((bindings h _).bind fun bound => (body h _).bind fun _ => pure _)
    · exact fail _
  · exact fail _

theorem special (form : SpecialForm) (args : List Value) :
    OfDeedsIn here (Analysis.special here an form args) := by
  unfold Analysis.special
  cases form with
  | quote =>
    dsimp only
    split
    · exact pure _
    · exact fail _
  | define => exact define h args
  | defineMacro => exact defineMacro h args
  | branch => exact branch h args
  | sequence => exact body h args
  | bind => exact bind_form h args
  | function => exact (function h args).bind fun _ => pure _
  | theVar => exact act (OfDeeds.theVar args)

theorem call (head : Value) (args : List Value) : OfDeedsIn here (Analysis.call an head args) :=
  (h head).bind fun _ => (forEach h args).bind fun _ => pure _

theorem form {expand : Value → Action Value} (hx : ∀ v, OfDeeds here (expand v)) (v : Value) :
    OfDeedsIn here (Analysis.form here an expand v) := by
  unfold Analysis.form
  split
  · exact symbol _
  · refine (kind _).bind fun kind => ?_
    cases kind with
    | special form => exact special h form _
    | macroCall v => exact (act (OfDeeds.expansion hx v _ _ _)).bind fun v => h v
    | call => exact call h _ _
  · exact call h _ _
  · exact (forEach h _).bind fun _ => pure _
  · refine (forEach (fun entry => ?_) _).bind fun _ => pure _
    exact (h entry.1).bind fun k => (h entry.2).bind fun _ => pure _
  · exact pure _

end

/-- The analysis of a form is made of deeds: by induction on the depth. -/
theorem meaning (depth : Nat) (v : Value) : OfDeedsIn here (Analysis.meaning here depth v) := by
  induction depth generalizing v with
  | zero => exact act (OfDeeds.throw _)
  | succ depth ih => exact form ih (OfDeeds.expandFully depth) v

end OfDeedsIn

namespace OfDeeds

/-! ## Reading -/

theorem supply (v : Value) (frames : List Frame) : OfDeeds here (Action.update (Reader.supply · v frames)) := by
  induction frames generalizing v with
  | nil => exact update .look fun _ => rfl
  | cons frame frames ih =>
    cases frame with
    | quote => exact newObject.bind fun id => ih (.list id [.symbol quoteSymbol, v])
    | group b items => exact update .look fun _ => rfl

theorem close (b : Bracket) (items : List Value) (frames : List Frame) :
    OfDeeds here (Action.update (Reader.close · b items frames)) := by
  cases b with
  | round => exact newObject.bind fun id => supply (.list id items) frames
  | square => exact newObject.bind fun id => supply (.vector id items) frames
  | curly =>
    unfold Reader.close
    dsimp only
    split
    · exact newObject.bind fun id => supply (.map id (Value.entriesOf (Value.pairUp items))) frames
    · exact update .look fun _ => rfl

theorem readStep (frames : List Frame) (t : Token) :
    OfDeeds here (Action.update (Reader.step · here frames t)) := by
  cases t with
  | int n => exact supply _ _
  | float x => exact supply _ _
  | str text => exact newObject.bind fun id => supply (.str id text) frames
  | symbol text => exact supply _ _
  | keyword text auto =>
    have hread : OfDeeds here (Action.update (·.readKeyword here (Symbol.parse text) auto)) :=
      update (.readKeyword (Symbol.parse text) auto) fun _ => rfl
    have hgoes : Action.update (Reader.step · here frames (.keyword text auto)) =
        Action.update (·.readKeyword here (Symbol.parse text) auto) >>= Reader.supplyKeyword frames := by
      funext w
      show _ = EStateM.bind _ _ w
      unfold EStateM.bind Action.update Reader.step
      dsimp only
      cases w.readKeyword here (Symbol.parse text) auto with
      | mk k? u => cases k? <;> rfl
    rw [hgoes]
    refine hread.bind fun k? => ?_
    cases k? with
    | ok k => exact supply _ _
    | error e => exact pure _
  | quote => exact update .look fun _ => rfl
  | opening b => exact update .look fun _ => rfl
  | closing b =>
    unfold Reader.step
    dsimp only
    split
    · split
      · exact close _ _ _
      · exact update .look fun _ => rfl
    · exact update .look fun _ => rfl

theorem reading_cons {l : Lexeme} {t : Token} (hl : l.result = .ok t) (frames : List Frame)
    (lexemes : List Lexeme) :
    Reader.reading here frames (l :: lexemes) =
      Action.update (Reader.step · here frames t) >>= Reader.goOn here lexemes := by
  funext w
  show _ = EStateM.bind _ _ w
  unfold EStateM.bind Reader.reading Action.update
  cases frames with
  | nil =>
    simp only [Reader.readFrom, hl]
    cases Reader.step w here [] t with
    | mk step u => cases step <;> rfl
  | cons frame frames =>
    simp only [Reader.readFrom, hl]
    cases Reader.step w here (frame :: frames) t with
    | mk step u => cases step <;> rfl

/-- The next form is read token by token. -/
theorem reading (frames : List Frame) (lexemes : List Lexeme) :
    OfDeeds here (Reader.reading here frames lexemes) := by
  induction lexemes generalizing frames with
  | nil => cases frames <;> exact update .look fun _ => rfl
  | cons l lexemes ih =>
    cases hl : l.result with
    | error e =>
      -- What the lexer refuses ends the reading, and nothing is done to the world.
      refine update .look fun w => ?_
      cases frames <;> simp only [Reader.readFrom, hl] <;> rfl
    | ok t =>
      rw [reading_cons hl]
      refine (readStep frames t).bind fun step => ?_
      cases step with
      | form v => exact pure _
      | pending frames => exact ih frames
      | refused e depth => exact pure _

theorem take (lexemes : List Lexeme) : OfDeeds here (Action.update (Reader.take · here lexemes)) :=
  reading [] lexemes

theorem foldUpTo {f : β → Value → Action β} (h : ∀ b v, OfDeeds here (f b v)) (count : Nat)
    (lexemes : List Lexeme) (b : β) : OfDeeds here (Reader.foldUpTo here f count lexemes b) := by
  induction count generalizing lexemes b with
  | zero => exact pure b
  | succ count ih =>
    refine (take lexemes).bind fun r => ?_
    split
    · exact pure _
    · exact fail _
    · exact (h b _).bind fun b => ih _ b

/-! ## Texts -/

theorem evalForm (depth : Nat) (scopes : List Scope) (form : Value) :
    OfDeeds here (Session.evalForm here depth scopes form) :=
  (OfDeedsIn.meaning depth form scopes).bind fun r => (evaluate depth [] r.1).bind fun _ => pure _

/-- The evaluation of a text is made of deeds. -/
theorem evalText (depth : Nat) (text : String) : OfDeeds here (Session.evalText here depth text) :=
  map (foldUpTo (fun (p : Session.Progress) v => (evalForm depth p.scopes v).bind fun _ => pure _) _ _ _)

end OfDeeds

end SmallLisp
