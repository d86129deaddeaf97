import SmallLisp.Native.Call
import SmallLisp.Proofs.Action.Lockstep

/-!
# Native functions in lockstep

A native function goes the same way in related worlds (`Lockstep.call`), provided that the two kinds of
expansion that it is handed do.
-/

namespace SmallLisp.Lockstep

variable {here : Site} {L : Lockstep here} {α β : Type}

/-! ## Arithmetic and names -/

theorem Gives.bind {r : Except EvalFault α} {f : α → Except EvalFault β} {P : α → Prop}
    {Q : β → Prop} (h : Gives P r) (hf : ∀ x, P x → Gives Q (f x)) : Gives Q (r >>= f) := by
  cases r with
  | ok x => exact hf x (h.value x rfl)
  | error e => exact gives_error (h.bound e rfl)

/-- Nothing is asked of the value. -/
abbrev Bound (r : Except EvalFault α) : Prop := Gives (fun _ => True) r

theorem bound_ok {x : α} : Bound (.ok x) := gives_ok trivial

theorem bound_foldlM {f : β → α → Except EvalFault β} (hf : ∀ b a, Bound (f b a)) (as : List α)
    (b : β) : Bound (as.foldlM f b) := by
  induction as generalizing b with
  | nil => exact bound_ok
  | cons a as ih =>
    rw [List.foldlM_cons]
    exact (hf b a).bind fun b _ => ih b

theorem bound_mapM {f : α → Except EvalFault β} (hf : ∀ a, Bound (f a)) (as : List α) :
    Bound (as.mapM f) := by
  induction as with
  | nil =>
    rw [List.mapM_nil]
    exact bound_ok
  | cons a as ih =>
    rw [List.mapM_cons]
    exact (hf a).bind fun b _ => ih.bind fun bs _ => bound_ok

theorem bound_ofValue (f : Native) (v : Value) : Bound (Number.ofValue f v) := by
  unfold Number.ofValue
  split
  · exact bound_ok
  · exact bound_ok
  · exact gives_error nofun

theorem bound_apply (op : Operation) (a b : Number) : Bound (Number.apply op a b) := by
  unfold Number.apply
  split
  · split
    · exact bound_ok
    · exact gives_error nofun
  · exact bound_ok

theorem bound_divide (a b : Number) : Bound (Number.divide a b) := by
  unfold Number.divide
  split
  · split
    · exact gives_error nofun
    · split
      · dsimp only
        split <;> exact bound_ok
      · exact bound_ok
  · exact bound_ok

/-- The value refers to nothing. -/
def Plain (v : Value) : Prop := v.refs = []

theorem plain_toValue (n : Number) : Plain n.toValue := by
  cases n <;> rfl

theorem plain_fold (f : Native) {combine : Number → Number → Except EvalFault Number}
    (h : ∀ a b, Bound (combine a b)) (start : Number) (args : List Value) :
    Gives Plain (Number.fold f combine start args) :=
  (bound_foldlM (fun acc arg => (bound_ofValue f arg).bind fun n _ => h acc n) args start).map
    fun n _ => plain_toValue n

theorem plain_difference (args : List Value) : Gives Plain (Number.difference args) := by
  unfold Number.difference
  split
  · exact gives_error nofun
  · exact plain_fold _ (bound_apply _) _ _
  · exact (bound_ofValue _ _).bind fun n _ => plain_fold _ (bound_apply _) n _

theorem plain_quotient (args : List Value) : Gives Plain (Number.quotient args) := by
  unfold Number.quotient
  split
  · exact gives_error nofun
  · exact plain_fold _ bound_divide _ _
  · exact (bound_ofValue _ _).bind fun n _ => plain_fold _ bound_divide n _

theorem plain_ordered (f : Native) (holds : Ordering → Bool) (args : List Value) :
    Gives Plain (Number.ordered f holds args) := by
  unfold Number.ordered
  split
  · exact gives_error nofun
  · exact (bound_mapM (bound_ofValue f) args).bind fun _ _ => gives_ok rfl

theorem bound_nameText (f : Native) (v : Value) : Bound (Native.nameText f v) := by
  unfold Native.nameText
  split
  · exact bound_ok
  · exact bound_ok
  · exact bound_ok
  · exact gives_error nofun

theorem bound_symbolOf (f : Native) (args : List Value) : Bound (Native.symbolOf f args) := by
  unfold Native.symbolOf
  split
  · exact (bound_nameText f _).bind fun _ _ => bound_ok
  · exact (bound_nameText f _).bind fun _ _ => (bound_nameText f _).bind fun _ _ => bound_ok
  · exact gives_error nofun

theorem pureResult {r : Except EvalFault Value} (h : Gives Plain r) :
    L.Steps L.Allows (Native.pureResult r) (Native.pureResult r) := by
  cases r with
  | ok v => exact pure (allows_plain (h.value v rfl))
  | error e => exact failEval (h.bound e rfl)

/-- A value that refers to nothing. -/
theorem plain {v : Value} (h : Plain v) : L.Steps L.Allows (Pure.pure v) (Pure.pure v) :=
  pure (allows_plain h)

/-! ## Arguments -/

variable {args : List Value}

theorem one (f : Native) (h : L.AllowsAll args) :
    L.Steps L.Allows (Native.one f args) (Native.one f args) := by
  unfold Native.one
  split
  · exact pure h.head
  · exact failEval nofun

theorem two (f : Native) (h : L.AllowsAll args) :
    L.Steps (fun p => L.Allows p.1 ∧ L.Allows p.2) (Native.two f args) (Native.two f args) := by
  unfold Native.two
  split
  · exact pure ⟨h.head, h.tail.head⟩
  · exact failEval nofun

theorem elements {v : Value} (h : L.Allows v) :
    L.Steps (fun items => ∀ vs, items = some vs → L.AllowsAll vs) v.elements v.elements := by
  have all : ∀ {vs : List Value}, L.AllowsAll vs → ∀ vs', some vs = some vs' → L.AllowsAll vs' :=
    fun h _ he => Option.some.inj he ▸ h
  unfold Value.elements
  split
  · exact pure (all allowsAll_nil)
  · exact pure (all (Value.within_list.mp h))
  · exact pure (all (Value.within_vector.mp h))
  · refine map (Steps.mono (forEach fun e he => ?_) fun vs hvs => all hvs)
    obtain ⟨hk, hv⟩ := Value.within_map.mp h e he
    exact newVector (AllowsAll.cons hk (AllowsAll.cons hv allowsAll_nil))
  · exact map (Steps.mono (forEach fun c _ => newString c.toString) fun vs hvs => all hvs)
  · exact pure nofun

theorem sequence (f : Native) {v : Value} (h : L.Allows v) :
    L.Steps L.AllowsAll (Native.sequence f v) (Native.sequence f v) := by
  refine bind (elements h) fun items hi => ?_
  cases items with
  | some items => exact pure (hi items rfl)
  | none => exact failEval nofun

theorem listOrNil (f : Native) {v : Value} (h : L.Allows v) :
    L.Steps L.Allows (Native.listOrNil f v) (Native.listOrNil f v) := by
  refine bind (sequence f h) fun items hi => ?_
  cases items with
  | nil => exact plain rfl
  | cons item items => exact newList hi

theorem size {v : Value} (h : L.Allows v) : L.Runs (Native.size v) (Native.size v) := by
  unfold Native.size
  split
  · exact pure trivial
  · exact pure trivial
  · exact pure trivial
  · exact pure trivial
  · exact bind (sequence _ h) fun _ _ => pure trivial

theorem getFrom (h : L.AllowsAll args) :
    L.Steps L.Allows (Native.getFrom args) (Native.getFrom args) := by
  unfold Native.getFrom
  split
  · exact pure (Value.Within.getD (fun _ => h.head.lookupIn) (allows_plain rfl))
  · exact pure (Value.Within.getD (fun _ => h.head.lookupIn) h.tail.tail.head)
  · exact failEval nofun

theorem freshSymbol (stem : String) :
    L.Steps L.Allows (Native.freshSymbol stem) (Native.freshSymbol stem) :=
  bind (update (L.uniqueName stem)) fun _ _ => plain rfl

theorem printing (text : String) : L.Runs (Action.print text) (Action.print text) :=
  change (L.print text)

/-! ## Calls -/

/-- The two expansions go the same way. -/
def Expands (L : Lockstep here) (expand expand' : Value → Action Value) : Prop :=
  ∀ v, L.Allows v → L.Steps L.Allows (expand v) (expand' v)

/-- A call of a native function, given expansions that go the same way. -/
theorem call {x y : Expander} (honce : L.Expands x.once y.once) (hfully : L.Expands x.fully y.fully)
    (f : Native) (h : L.AllowsAll args) :
    L.Steps L.Allows (Native.call x here f args) (Native.call y here f args) := by
  unfold Native.call
  cases f <;> dsimp only
  case inNs =>
    refine bind (one _ h) fun v _ => ?_
    split
    · exact bind (update (switchNamespace _)) fun _ _ => plain rfl
    · exact failEval nofun
  case assert =>
    split
    · exact plain rfl
    · exact fail nofun nofun
  case seq =>
    refine bind (one _ h) fun v hv => ?_
    split
    · exact pure hv
    · exact listOrNil _ hv
  case freshSeq => exact bind (one _ h) fun v hv => listOrNil _ hv
  case add => exact pureResult (plain_fold _ (bound_apply _) _ _)
  case subtract => exact pureResult (plain_difference _)
  case multiply => exact pureResult (plain_fold _ (bound_apply _) _ _)
  case divide => exact pureResult (plain_quotient _)
  case equal =>
    split
    · exact failEval nofun
    · exact plain rfl
  case less => exact pureResult (plain_ordered _ _ _)
  case greater => exact pureResult (plain_ordered _ _ _)
  case atMost => exact pureResult (plain_ordered _ _ _)
  case atLeast => exact pureResult (plain_ordered _ _ _)
  case not => exact bind (one _ h) fun _ _ => plain rfl
  case isNil =>
    refine bind (one _ h) fun v _ => ?_
    split <;> exact plain rfl
  case identical => exact bind (two _ h) fun _ _ => plain rfl
  case list => exact newList h
  case cons =>
    refine bind (two _ h) fun p hp => ?_
    exact bind (sequence _ hp.2) fun items hi => newList (AllowsAll.cons hp.1 hi)
  case first =>
    refine bind (one _ h) fun v hv => ?_
    refine bind (sequence _ hv) fun items hi => pure ?_
    exact Value.Within.getD (fun v hv => hi v (List.mem_of_head? hv)) (allows_plain rfl)
  case rest =>
    refine bind (one _ h) fun v hv => ?_
    exact bind (sequence _ hv) fun items hi => newList fun v hv => hi v (List.mem_of_mem_drop hv)
  case count =>
    refine bind (one _ h) fun v hv => ?_
    exact bind (size hv) fun _ _ => plain rfl
  case vector => exact newVector h
  case hashMap =>
    split
    · exact newMap (Value.entriesWithin_pairUp h).entriesOf
    · exact failEval nofun
  case get => exact getFrom h
  case str => exact newString _
  case keyword =>
    cases h : Native.symbolOf .keyword args with
    | ok s => exact bind (update (L.internKeyword s)) fun _ _ => plain rfl
    | error e => exact failEval ((bound_symbolOf _ _).bound e h)
  case symbol => exact pureResult ((bound_symbolOf _ _).map fun _ _ => rfl)
  case print => exact bind (printing _) fun _ _ => plain rfl
  case println => exact bind (printing _) fun _ _ => plain rfl
  case gensym =>
    split
    · exact freshSymbol _
    · rename_i stem
      cases h : Native.nameText .gensym stem with
      | ok text => exact freshSymbol text
      | error e => exact failEval ((bound_nameText _ _).bound e h)
    · exact failEval nofun
  case expandOnce => exact bind (one _ h) fun v hv => honce v hv
  case expandFully => exact bind (one _ h) fun v hv => hfully v hv

end SmallLisp.Lockstep
