import SmallLisp.Analysis
import SmallLisp.Proofs.Evaluation.Objects

/-!
# The objects that analysis makes

A form that is among the objects is analysed to an expression whose constants are among the objects there are then
(`Makes.meaning`). One lemma for each kind of form is the step of the induction on the depth.
-/

namespace SmallLisp

variable {os : Objects}

namespace Makes

variable {here : Site} {args : List Value}

/-! ## Names -/

theorem resolve (s : Symbol) : Makes id os (fun _ _ => True) (Analysis.resolve here s) := by
  refine bind (findVar s) fun _ found _ _ => ?_
  split
  · exact pure trivial
  · split
    · exact pure trivial
    · exact bind (update fun _ hw => hw.internNamespace here.registry _) fun _ _ _ _ => look _

theorem localSymbol (v : Value) : Makes id os (fun _ _ => True) (Analysis.localSymbol v) := by
  unfold Analysis.localSymbol
  split
  · split
    · exact failAnalysis
    · exact pure trivial
  · exact failAnalysis

theorem symbol (s : Symbol) : Makes Desk.world os Expr.Among (Analysis.symbol here s) := by
  refine bind (isLocal s) fun _ found _ _ => ?_
  split
  · exact pure (.localName s)
  · refine bind (act (resolve s)) fun _ found _ _ => ?_
    split
    · exact pure (.root _)
    · exact failForm

theorem target (form : SpecialForm) (v : Value) :
    Makes id os (fun _ _ => True) (Analysis.target here form v) := by
  unfold Analysis.target
  split
  · refine bind (attempt fun _ hw => hw.currentNamespace here) fun _ current _ _ => ?_
    split
    · exact failAnalysis
    · refine bind (attempt fun _ hw => hw.qualify here _) fun _ qualified _ _ => ?_
      exact attempt fun _ hw => hw.internVar here.registry qualified
  · exact failAnalysis

theorem params (forms : List Value) : Makes id os (fun _ _ => True) (Analysis.params forms) := by
  induction forms generalizing os with
  | nil => exact pure trivial
  | cons v vs ih =>
    simp only [Analysis.params]
    refine bind (localSymbol v) fun _ s _ _ => ?_
    split
    · split
      · exact failAnalysis
      · refine bind (localSymbol _) fun _ rest _ _ => ?_
        split
        · exact pure trivial
        · exact failAnalysis
    · exact bind ih fun _ names _ _ => pure trivial

/-! ## Special forms -/

/-- Forms among the objects are analysed to expressions that are among the objects there are then. -/
def Analyzes (an : Analyzer) : Prop := ∀ {os v}, v.Among os → Makes Desk.world os Expr.Among (an v)

/-- All of the expressions are among the objects. -/
abbrev ExprsAmong (os : Objects) (es : List Expr) : Prop := ∀ e ∈ es, e.Among os

variable {an : Analyzer}

theorem analyzeAll (h : Analyzes an) {forms : List Value} (hf : Value.AllAmong os forms) :
    Makes Desk.world os ExprsAmong (Action.forEach an forms) :=
  forEach (Q := Expr.Among) Expr.Among.mono fun v hv _ hmore => h ((hf v hv).mono hmore)

theorem body (h : Analyzes an) {forms : List Value} (hf : Value.AllAmong os forms) :
    Makes Desk.world os Expr.Among (Analysis.body an forms) := by
  refine bind (analyzeAll h hf) fun _ es _ hes => ?_
  split
  · exact pure (hes _ (List.mem_singleton_self _))
  · exact pure (.sequence hes)

/-- The parameters bind names only, so it does not matter which object their vector is. -/
theorem functionFrom (h : Analyzes an) (name : Option Symbol) (ha : Value.AllAmong os args.tail) :
    Makes Desk.world os (fun more f => f.2.Among more) (Analysis.functionFrom an name args) := by
  unfold Analysis.functionFrom
  split
  · refine bind (act (params _)) fun more p hmore _ => ?_
    exact bind (within (body h (ha.mono hmore))) fun _ e _ he => pure he
  · exact failForm

theorem function (h : Analyzes an) (ha : Value.AllAmong os args) :
    Makes Desk.world os (fun more f => f.2.Among more) (Analysis.function an args) := by
  have tail {args} (ha : Value.AllAmong os args) : Value.AllAmong os args.tail :=
    fun v hv => ha v (List.mem_of_mem_tail hv)
  unfold Analysis.function
  split
  · exact bind (act (localSymbol _)) fun _ name hmore _ => functionFrom h _ ((tail ha.tail).mono hmore)
  · exact functionFrom h _ (tail ha)

theorem bindings (h : Analyzes an) {pairs : List (Value × Value)} (hp : Value.EntriesAmong os pairs) :
    Makes Desk.world os (fun more bound => ∀ b ∈ bound, b.2.Among more) (Analysis.bindings an pairs) := by
  induction pairs generalizing os with
  | nil => exact pure nofun
  | cons pair pairs ih =>
    obtain ⟨name, init⟩ := pair
    obtain ⟨hinit, hrest⟩ := List.forall_mem_cons.mp hp
    refine bind (act (localSymbol name)) fun more s hmore _ => ?_
    refine bind (h (hinit.value.mono hmore)) fun later e hlater he => ?_
    refine bind (declare s) fun last _ hlast _ => ?_
    have hlate := hlater.trans hlast
    refine bind (ih (Value.EntriesAmong.mono hrest (hmore.trans hlate))) fun final bound hfinal hbound => ?_
    exact pure (List.forall_mem_cons.mpr ⟨he.mono (hlast.trans hfinal), hbound⟩)

theorem bind_form (h : Analyzes an) (ha : Value.AllAmong os args) :
    Makes Desk.world os Expr.Among (Analysis.bind an args) := by
  unfold Analysis.bind
  split
  · split
    · have hforms := Value.entriesAmong_pairUp (Value.among_vector.mp ha.head).2
      refine within (bind (bindings h hforms) fun more bound hmore hbound => ?_)
      refine bind (body h (ha.tail.mono hmore)) fun later e hlater he => ?_
      exact pure (.bind (fun b hb => (hbound b hb).mono hlater) he)
    · exact failForm
  · exact failForm

theorem define (h : Analyzes an) (ha : Value.AllAmong os args) :
    Makes Desk.world os Expr.Among (Analysis.define here an args) := by
  have valued {more name v} (hv : Value.Among more v) :
      Makes Desk.world more Expr.Among (do
        let target ← Analysis.act (Analysis.target here .define name)
        return .define target (some (← an v)) none) := by
    refine bind (act (target _ _)) fun later v hlater _ => ?_
    refine bind (h (hv.mono hlater)) fun last e _ he => ?_
    exact pure (.define (by rintro _ ⟨⟩; exact he) nofun)
  unfold Analysis.define
  split
  · exact bind (act (target _ _)) fun _ v _ _ => pure (.define nofun nofun)
  · exact valued ha.tail.head
  · exact valued ha.tail.tail.head
  · exact failForm

theorem markMetadata : Gives (Analysis.markMetadata here) os :=
  bind markKey fun _ _ _ hk => newMap (List.pairwise_singleton ..)
    (List.forall_mem_singleton.mpr ⟨hk, Value.among_of_noObject rfl⟩)

theorem defineMacro (h : Analyzes an) (ha : Value.AllAmong os args) :
    Makes Desk.world os Expr.Among (Analysis.defineMacro here an args) := by
  unfold Analysis.defineMacro
  split
  · refine bind (act (target _ _)) fun more v hmore _ => ?_
    refine bind (functionFrom h none (ha.tail.tail.mono hmore)) fun later f hlater hf => ?_
    refine bind (act markMetadata) fun last metadata hlast hm => ?_
    exact pure (.define (by rintro _ ⟨⟩; exact .function (hf.mono hlast)) (by rintro _ ⟨⟩; exact hm))
  · exact failForm
  · exact failForm

theorem branch (h : Analyzes an) (ha : Value.AllAmong os args) :
    Makes Desk.world os Expr.Among (Analysis.branch an args) := by
  unfold Analysis.branch
  split
  · refine bind (h ha.head) fun more test hmore htest => ?_
    refine bind (h (ha.tail.head.mono hmore)) fun later yes hlater hyes => ?_
    exact pure (.branch (htest.mono hlater) hyes nofun)
  · refine bind (h ha.head) fun more test hmore htest => ?_
    refine bind (h (ha.tail.head.mono hmore)) fun later yes hlater hyes => ?_
    refine bind (h (ha.tail.tail.head.mono (hmore.trans hlater))) fun last no hlast hno => ?_
    exact pure (.branch (htest.mono (hlater.trans hlast)) (hyes.mono hlast) (by rintro _ ⟨⟩; exact hno))
  · exact failForm

theorem theVar (args : List Value) : Makes id os Expr.Among (Analysis.theVar here args) := by
  unfold Analysis.theVar
  split
  · refine bind (resolve _) fun _ found _ _ => ?_
    split
    · exact pure (.theVar _)
    · exact failAnalysis
  · exact failAnalysis
  · exact failAnalysis

theorem special (h : Analyzes an) (form : SpecialForm) (ha : Value.AllAmong os args) :
    Makes Desk.world os Expr.Among (Analysis.special here an form args) := by
  unfold Analysis.special
  cases form with
  | quote =>
    dsimp only
    split
    · exact pure (.const ha.head)
    · exact failForm
  | define => exact define h ha
  | defineMacro => exact defineMacro h ha
  | branch => exact branch h ha
  | sequence => exact body h ha
  | bind => exact bind_form h ha
  | function => exact bind (function h ha) fun _ f _ hf => pure (.function hf)
  | theVar => exact act (theVar args)

/-! ## Lists -/

theorem calledMacro (head : Symbol) : Makes id os (fun _ _ => True) (Analysis.calledMacro? here head) := by
  refine bind (resolve head) fun _ found _ _ => ?_
  split
  · exact pure trivial
  · refine bind markKey fun _ key _ _ => ?_
    refine bind (look _) fun _ flag _ _ => ?_
    split <;> exact pure trivial

theorem kind (head : Symbol) : Makes Desk.world os (fun _ _ => True) (Analysis.kind here head) := by
  refine bind (isLocal head) fun _ found _ _ => ?_
  split
  · exact pure trivial
  · refine act ?_
    unfold Analysis.globalKind
    split
    · exact pure trivial
    · refine bind (calledMacro head) fun _ found _ _ => ?_
      split <;> exact pure trivial

theorem expansion {expand : Value → Action Value} (h : Expands expand) (v : Var) (head : Symbol) {form : Value}
    (hform : form.Among os) (ha : Value.AllAmong os args) :
    Gives (Analysis.expansion expand v head form args) os := by
  have named : Gives (Analysis.namedCall v head form args) os := by
    unfold Analysis.namedCall
    split
    · exact pure hform
    · exact newList (.cons (Value.among_of_noObject rfl) ha)
  exact bind named fun _ form _ hform => h hform

theorem call_form (h : Analyzes an) {head : Value} (hh : head.Among os) (ha : Value.AllAmong os args) :
    Makes Desk.world os Expr.Among (Analysis.call an head args) := by
  refine bind (h hh) fun more callee hmore hcallee => ?_
  refine bind (analyzeAll h (ha.mono hmore)) fun later es hlater hes => ?_
  exact pure (.call (hcallee.mono hlater) hes)

theorem map_form (h : Analyzes an) {entries : List (Value × Value)} (hentries : Value.EntriesAmong os entries) :
    Makes Desk.world os Expr.Among (do return .map (← Action.forEach (Analysis.entry an) entries)) := by
  have later {os more : Objects} {p : Expr × Expr} (hp : p.1.Among os ∧ p.2.Among os) (hmore : os <+: more) :
      p.1.Among more ∧ p.2.Among more := ⟨hp.1.mono hmore, hp.2.mono hmore⟩
  refine bind (P := fun more es => ∀ e ∈ es, e.1.Among more ∧ e.2.Among more) ?_ fun _ es _ hes =>
    pure (.map (fun e he => (hes e he).1) fun e he => (hes e he).2)
  refine forEach later fun e he more hmore => ?_
  have hentry := (hentries e he).mono hmore
  refine bind (h hentry.key) fun further k hfurther hk => ?_
  exact bind (h (hentry.value.mono hfurther)) fun last v hlast hv => pure ⟨hk.mono hlast, hv⟩

/-! ## Forms -/

theorem form (h : Analyzes an) {expand : Value → Action Value} (hx : Expands expand) :
    Analyzes (Analysis.form here an expand) := by
  intro os v hv
  unfold Analysis.form
  split
  · exact symbol _
  · have hargs : Value.AllAmong os _ := (Value.among_list.mp hv).2.tail
    refine bind (kind _) fun more kind hmore _ => ?_
    split
    · exact special h _ (hargs.mono hmore)
    · exact bind (act (expansion hx _ _ (hv.mono hmore) (hargs.mono hmore))) fun _ expanded _ he => h he
    · exact call_form h (Value.among_of_noObject rfl) (hargs.mono hmore)
  · have hitems := (Value.among_list.mp hv).2
    exact call_form h hitems.head hitems.tail
  · exact bind (analyzeAll h (Value.among_vector.mp hv).2) fun _ es _ hes => pure (.vector hes)
  · exact map_form h (Value.among_map.mp hv).2
  · exact pure (.const hv)

/-- A form is analysed to an expression whose constants are among the objects there are then. -/
theorem meaning (d : Nat) : Analyzes (Analysis.meaning here d) := by
  induction d with
  | zero => exact fun _ => act throw
  | succ d ih => exact form ih expandFully

end Makes

end SmallLisp
