import SmallLisp.Native.Call
import SmallLisp.Proofs.Action.Objects

/-!
# The objects that native functions make

Given arguments that are among the objects, a native function has a value that is among the objects there are then
(`Makes.call`), if the two kinds of expansion that it is handed have.
-/

namespace SmallLisp

variable {os : Objects} {args : List Value}

/-! ## Results that may be faults -/

/-- A result that goes on from another one. -/
theorem exists_ok_of_bind {α β : Type} {x : Except EvalFault α} {f : α → Except EvalFault β} {b : β}
    (h : x >>= f = .ok b) : ∃ a, f a = .ok b := by
  cases x with
  | ok a => exact ⟨a, h⟩
  | error e => cases h

theorem exists_ok_of_map {α β : Type} {x : Except EvalFault α} {f : α → β} {b : β} (h : x.map f = .ok b) :
    ∃ a, f a = b := by
  cases x with
  | ok a => exact ⟨a, Except.ok.inj h⟩
  | error e => cases h

namespace Number

variable {v : Value} {start : Number}

theorem objectId?_toValue (n : Number) : n.toValue.objectId? = none := by
  cases n <;> rfl

theorem objectId?_of_fold {f : Native} {combine : Number → Number → Except EvalFault Number}
    (h : fold f combine start args = .ok v) : v.objectId? = none := by
  obtain ⟨n, rfl⟩ := exists_ok_of_map h
  exact objectId?_toValue n

theorem objectId?_of_difference (h : difference args = .ok v) : v.objectId? = none := by
  unfold difference at h
  split at h
  · cases h
  · exact objectId?_of_fold h
  · obtain ⟨n, h⟩ := exists_ok_of_bind h
    exact objectId?_of_fold h

theorem objectId?_of_quotient (h : quotient args = .ok v) : v.objectId? = none := by
  unfold quotient at h
  split at h
  · cases h
  · exact objectId?_of_fold h
  · obtain ⟨n, h⟩ := exists_ok_of_bind h
    exact objectId?_of_fold h

theorem objectId?_of_ordered {f : Native} {holds : Ordering → Bool} (h : ordered f holds args = .ok v) :
    v.objectId? = none := by
  unfold ordered at h
  split at h
  · cases h
  · obtain ⟨numbers, h⟩ := exists_ok_of_bind h
    cases h
    rfl

end Number

namespace Makes

theorem pureResult {r : Except EvalFault Value} (h : ∀ {v}, r = .ok v → v.objectId? = none) :
    Gives (Native.pureResult r) os := by
  cases r with
  | ok v => exact plain (h rfl)
  | error e => exact failEval

/-! ## Arguments -/

theorem one (f : Native) (h : Value.AllAmong os args) : Gives (Native.one f args) os := by
  unfold Native.one
  split
  · exact pure h.head
  · exact failEval

theorem two (f : Native) (h : Value.AllAmong os args) :
    Makes id os (fun more p => p.1.Among more ∧ p.2.Among more) (Native.two f args) := by
  unfold Native.two
  split
  · exact pure ⟨h.head, h.tail.head⟩
  · exact failEval

/-- The entries and the characters of an argument are made anew, its elements are there. -/
theorem elements {v : Value} (h : v.Among os) :
    Makes id os (fun more items => ∀ vs, items = some vs → Value.AllAmong more vs) v.elements := by
  have all {more vs} (h : Value.AllAmong more vs) : ∀ vs', some vs = some vs' → Value.AllAmong more vs' :=
    fun _ he => Option.some.inj he ▸ h
  unfold Value.elements
  split
  · exact pure (all Value.allAmong_nil)
  · exact pure (all (Value.among_list.mp h).2)
  · exact pure (all (Value.among_vector.mp h).2)
  · refine map ((each fun e he more hmore => ?_).mono fun _ _ _ hvs => all hvs)
    obtain ⟨hk, hv⟩ := (Value.among_map.mp h).2.mono hmore e he
    exact newVector (.cons hk (.cons hv Value.allAmong_nil))
  · exact map ((each fun c _ _ _ => newString c.toString).mono fun _ _ _ hvs => all hvs)
  · exact pure nofun

theorem sequence (f : Native) {v : Value} (h : v.Among os) :
    Makes id os Value.AllAmong (Native.sequence f v) := by
  refine bind (elements h) fun more items _ hi => ?_
  cases items with
  | some items => exact pure (hi items rfl)
  | none => exact failEval

theorem listOrNil (f : Native) {v : Value} (h : v.Among os) : Gives (Native.listOrNil f v) os := by
  refine bind (sequence f h) fun more items _ hi => ?_
  cases items with
  | nil => exact plain rfl
  | cons item items => exact newList hi

theorem size {v : Value} (h : v.Among os) : Makes id os (fun _ _ => True) (Native.size v) := by
  unfold Native.size
  split
  · exact pure trivial
  · exact pure trivial
  · exact pure trivial
  · exact pure trivial
  · exact bind (sequence _ h) fun _ _ _ _ => pure trivial

theorem getFrom (h : Value.AllAmong os args) : Gives (Native.getFrom args) os := by
  unfold Native.getFrom
  split
  · exact pure (Value.among_getD (fun _ => h.head.lookupIn) (Value.among_of_noObject rfl))
  · exact pure (Value.among_getD (fun _ => h.head.lookupIn) h.tail.tail.head)
  · exact failEval

theorem freshSymbol (stem : String) : Gives (Native.freshSymbol stem) os :=
  bind (update fun _ hw => hw.uniqueName stem) fun _ _ _ _ => plain rfl

theorem printing (text : String) : Makes id os (fun _ _ => True) (Action.print text) :=
  change fun _ hw => hw.print text

/-! ## Calls -/

/-- The expansion of a value that is among the objects is among the objects there are then. -/
def Expands (expand : Value → Action Value) : Prop := ∀ {os v}, v.Among os → Gives (expand v) os

/-- A call of a native function. -/
theorem call {x : Expander} {here : Site} (honce : Expands x.once) (hfully : Expands x.fully)
    (f : Native) (h : Value.AllAmong os args) : Gives (Native.call x here f args) os := by
  unfold Native.call
  cases f <;> dsimp only
  case inNs =>
    refine bind (one _ h) fun _ v _ _ => ?_
    split
    · exact bind (update fun _ hw => hw.switchNamespace here _) fun _ _ _ _ => plain rfl
    · exact failEval
  case assert =>
    split
    · exact plain rfl
    · exact fail
  case seq =>
    refine bind (one _ h) fun _ v _ hv => ?_
    split
    · exact pure hv
    · exact listOrNil _ hv
  case freshSeq => exact bind (one _ h) fun _ v _ hv => listOrNil _ hv
  case add => exact pureResult Number.objectId?_of_fold
  case subtract => exact pureResult Number.objectId?_of_difference
  case multiply => exact pureResult Number.objectId?_of_fold
  case divide => exact pureResult Number.objectId?_of_quotient
  case equal =>
    split
    · exact failEval
    · exact plain rfl
  case less => exact pureResult Number.objectId?_of_ordered
  case greater => exact pureResult Number.objectId?_of_ordered
  case atMost => exact pureResult Number.objectId?_of_ordered
  case atLeast => exact pureResult Number.objectId?_of_ordered
  case not => exact bind (one _ h) fun _ _ _ _ => plain rfl
  case isNil =>
    refine bind (one _ h) fun _ v _ _ => ?_
    split <;> exact plain rfl
  case identical => exact bind (two _ h) fun _ _ _ _ => plain rfl
  case list => exact newList h
  case cons =>
    refine bind (two _ h) fun _ p _ hp => ?_
    exact bind (sequence _ hp.2) fun _ items hmore hi => newList (.cons (hp.1.mono hmore) hi)
  case first =>
    refine bind (one _ h) fun _ v _ hv => ?_
    refine bind (sequence _ hv) fun _ items _ hi => pure ?_
    exact Value.among_getD (fun v hv => hi v (List.mem_of_head? hv)) (Value.among_of_noObject rfl)
  case rest =>
    refine bind (one _ h) fun _ v _ hv => ?_
    exact bind (sequence _ hv) fun _ items _ hi => newList fun v hv => hi v (List.mem_of_mem_drop hv)
  case count =>
    refine bind (one _ h) fun _ v _ hv => ?_
    exact bind (size hv) fun _ _ _ _ => plain rfl
  case vector => exact newVector h
  case hashMap =>
    split
    · exact newMap (Value.distinctKeys_entriesOf _) (Value.entriesAmong_pairUp h).entriesOf
    · exact failEval
  case get => exact getFrom h
  case str => exact newString _
  case keyword =>
    split
    · exact bind (update fun _ hw => hw.internKeyword here.registry _) fun _ _ _ _ => plain rfl
    · exact failEval
  case symbol =>
    refine pureResult fun {v} hv => ?_
    obtain ⟨s, rfl⟩ := exists_ok_of_map hv
    rfl
  case print => exact bind (printing _) fun _ _ _ _ => plain rfl
  case println => exact bind (printing _) fun _ _ _ _ => plain rfl
  case gensym =>
    split
    · exact freshSymbol _
    · split
      · exact freshSymbol _
      · exact failEval
    · exact failEval
  case expandOnce => exact bind (one _ h) fun _ v _ hv => honce hv
  case expandFully => exact bind (one _ h) fun _ v _ hv => hfully hv

end Makes

end SmallLisp
