import SmallLisp.Proofs.Action.Together
import SmallLisp.Proofs.Expr.Names
import SmallLisp.Reader

/-!
# Actions in lockstep

A `Lockstep` is a relation between worlds that the elementary steps of the language keep: what the
language looks at is the same in both worlds, and what it changes leaves them related. Every action
that is composed of such steps then goes the same way in both worlds (`Lockstep.Steps`).

Three conditions ride along. If `strict`, the bodies of all functions take only names that are bound when
they are called, and no action fails for want of a local name. Only if `reads` may an action find what a
text says to be no token. And `mayUse` bounds what code gets hold of: what it finds in the world is within
the bound if what it has is, so that all its values are (`Lockstep.Allows`), and it can define only the vars
that the bound lets it.

With the relation "the same world, in which `I` holds", a lockstep says that `I` is kept.
-/

namespace SmallLisp

/-- A change of the world has the same result in related worlds, one of `P`, and keeps them
related. -/
def Carries {α : Type} (R : World → World → Prop) (P : α → Prop) (f : World → α × World) : Prop :=
  ∀ ⦃w u⦄, R w u → P (f w).1 ∧ (f w).1 = (f u).1 ∧ R (f w).2 (f u).2

theorem Carries.flip {α : Type} {R : World → World → Prop} {P : α → Prop} {f : World → α × World}
    (h : Carries R P f) : Carries (fun w u => R u w) P f := by
  intro w u hr
  obtain ⟨hp, he, hr'⟩ := h hr
  exact ⟨he ▸ hp, he.symm, hr'⟩

/-- A relation between worlds that the language keeps where it runs. -/
structure Lockstep (here : Site) where
  /-- The relation. -/
  Rel : World → World → Prop
  /-- Whether local names have to be bound. -/
  strict : Prop
  /-- Whether texts are read. -/
  reads : Prop
  /-- What code may get hold of. -/
  mayUse : Ref → Prop
  root : ∀ ⦃w u⦄, Rel w u → ∀ v, mayUse (.var v) → w.root v = u.root v ∧
    ∀ x, w.root v = some x → x.Within mayUse
  metadata : ∀ ⦃w u⦄, Rel w u → ∀ v, w.metadata v = u.metadata v
  closure : ∀ ⦃w u⦄, Rel w u → ∀ f, mayUse (.function f) → w.closure f = u.closure f ∧
    (w.closure f).Covered strict mayUse
  limit : ∀ ⦃w u⦄, Rel w u →
    (w.registry here.registry).expansionLimit = (u.registry here.registry).expansionLimit
  findVarIn : ∀ ⦃w u⦄, Rel w u → ∀ n s, mayUse (.ns n) → w.findVarIn? n s = u.findVarIn? n s ∧
    ∀ v, w.findVarIn? n s = some v → mayUse (.var v)
  findNamespace : ∀ ⦃w u⦄, Rel w u → ∀ name,
    w.findNamespace? here.registry name = u.findNamespace? here.registry name ∧
      ∀ n, w.findNamespace? here.registry name = some n → mayUse (.ns n)
  newObject : Carries Rel (fun _ => True) World.newObject
  uniqueName : ∀ stem, Carries Rel (fun _ => True) (·.uniqueName stem)
  print : ∀ text ⦃w u⦄, Rel w u → Rel (w.print text) (u.print text)
  internKeyword : ∀ s, Carries Rel (fun _ => True) (·.internKeyword here.registry s)
  internNamespace : ∀ name,
    Carries Rel (fun n => mayUse (.ns n)) (·.internNamespace here.registry name)
  internVar : ∀ s, Carries Rel (fun r => ∀ v, r = .ok v → mayUse (.target v) ∧ mayUse (.var v))
    (·.internVar here.registry s)
  threadState : Carries Rel (fun state => mayUse (.target state.current) ∧ mayUse (.var state.current))
    (·.threadState here)
  newFunction : ∀ c, c.Covered strict mayUse →
    Carries Rel (fun f => mayUse (.function f)) (·.newFunction c)
  setRoot : ∀ v x, mayUse (.target v) → x.Within mayUse →
    ∀ ⦃w u⦄, Rel w u → Rel (w.setRoot v x) (u.setRoot v x)
  setMetadata : ∀ v x, mayUse (.target v) →
    ∀ ⦃w u⦄, Rel w u → Rel (w.setMetadata v x) (u.setMetadata v x)

namespace Lockstep

variable {here : Site} (L : Lockstep here) {α β : Type} {P : α → Prop} {Q : β → Prop}

/-- An action may end like this. -/
structure Permits (h : Halt) : Prop where
  /-- Not for want of a local name. -/
  bound : L.strict → ∀ s, h ≠ .error (.eval (.unboundLocal s))
  /-- For a fault of lexing only where a text is read. -/
  lexical : ∀ fault, h = .error (.lex fault) → L.reads

/-- The two actions go the same way in related worlds, to a value of `P` if they have one. -/
def Steps (P : α → Prop) (a b : Action α) : Prop :=
  Together L.Rel a b (fun x w u => P x ∧ L.Rel w u) fun h w u => L.Permits h ∧ L.Rel w u

/-- The two actions go the same way in related worlds. -/
abbrev Runs (a b : Action α) : Prop := L.Steps (fun _ => True) a b

/-- The value refers only to what code may get hold of. -/
def Allows (v : Value) : Prop := v.Within L.mayUse

/-- The expression may be evaluated in the scope of these names. -/
def Sound (names : List Symbol) (e : Expr) : Prop := e.SoundIn L.strict L.mayUse names

/-- The worlds may be taken the other way round. -/
def flip : Lockstep here where
  Rel w u := L.Rel u w
  strict := L.strict
  reads := L.reads
  mayUse := L.mayUse
  root w u h v hv := by
    obtain ⟨he, hx⟩ := L.root h v hv
    exact ⟨he.symm, he ▸ hx⟩
  metadata w u h v := (L.metadata h v).symm
  closure w u h f hf := by
    obtain ⟨he, hc⟩ := L.closure h f hf
    exact ⟨he.symm, he ▸ hc⟩
  limit w u h := (L.limit h).symm
  findVarIn w u h n s hn := by
    obtain ⟨he, hv⟩ := L.findVarIn h n s hn
    exact ⟨he.symm, he ▸ hv⟩
  findNamespace w u h name := by
    obtain ⟨he, hn⟩ := L.findNamespace h name
    exact ⟨he.symm, he ▸ hn⟩
  newObject := L.newObject.flip
  uniqueName stem := (L.uniqueName stem).flip
  print text _ _ h := L.print text h
  internKeyword s := (L.internKeyword s).flip
  internNamespace name := (L.internNamespace name).flip
  internVar s := (L.internVar s).flip
  threadState := L.threadState.flip
  newFunction c hc := (L.newFunction c hc).flip
  setRoot v x hv hx _ _ h := L.setRoot v x hv hx h
  setMetadata v x hv _ _ h := L.setMetadata v x hv h

variable {L}

theorem permits_error {e : Error} (h : ∀ s, e ≠ .eval (.unboundLocal s))
    (hlexical : ∀ fault, e = .lex fault → L.reads) : L.Permits (.error e) :=
  ⟨fun _ s hs => h s (by simpa using hs), fun fault hf => hlexical fault (by simpa using hf)⟩

theorem permits_outOfDepth : L.Permits .outOfDepth := ⟨fun _ => nofun, nofun⟩

theorem Steps.mono {P' : α → Prop} {a b : Action α} (h : L.Steps P a b) (hp : ∀ x, P x → P' x) :
    L.Steps P' a b :=
  Together.mono h (fun _ _ h => h) (fun x _ _ h => ⟨hp x h.1, h.2⟩) fun _ _ _ h => h

theorem Steps.runs {a b : Action α} (h : L.Steps P a b) : L.Runs a b := h.mono fun _ _ => trivial

/-! ## Composition -/

theorem pure {x : α} (h : P x) : L.Steps P (Pure.pure x) (Pure.pure x) :=
  Together.pure fun _ _ hr => ⟨h, hr⟩

theorem bind {a b : Action α} {f g : α → Action β} (h : L.Steps P a b)
    (hf : ∀ x, P x → L.Steps Q (f x) (g x)) : L.Steps Q (a >>= f) (b >>= g) :=
  Together.bind h fun x w u hx => hf x hx.1 w u hx.2

theorem map {a b : Action α} {f : α → β} (h : L.Steps (fun x => Q (f x)) a b) :
    L.Steps Q (f <$> a) (f <$> b) :=
  Together.map h

theorem outOfDepth {b : Action α} : L.Steps P Action.outOfDepth b :=
  fun _ _ hr => .outOfDepth ⟨permits_outOfDepth, hr⟩

theorem fail {e : Error} (h : ∀ s, e ≠ .eval (.unboundLocal s))
    (hlexical : ∀ fault, e = .lex fault → L.reads) : L.Steps P (Action.fail e) (Action.fail e) :=
  fun _ _ hr => .error ⟨permits_error h hlexical, hr⟩

theorem failEval {fault : EvalFault} (h : ∀ s, fault ≠ .unboundLocal s) :
    L.Steps P (Action.failEval fault) (Action.failEval fault) :=
  fail (fun s hs => h s (by simpa using hs)) nofun

theorem failAnalysis {fault : AnalysisFault} :
    L.Steps P (Action.failAnalysis fault) (Action.failAnalysis fault) :=
  fail nofun nofun

theorem view {f : World → α} (h : ∀ ⦃w u⦄, L.Rel w u → P (f w) ∧ f w = f u) :
    L.Steps P (Action.view f) (Action.view f) := by
  intro w u hr
  obtain ⟨hp, he⟩ := h hr
  show EndTogether _ _ (.ok (f w) w) (.ok (f u) u)
  rw [← he]
  exact .ok ⟨hp, hr⟩

theorem look {f : World → α} (h : ∀ ⦃w u⦄, L.Rel w u → f w = f u) :
    L.Runs (Action.view f) (Action.view f) :=
  view fun _ _ hr => ⟨trivial, h hr⟩

theorem change {f : World → World} (h : ∀ ⦃w u⦄, L.Rel w u → L.Rel (f w) (f u)) :
    L.Runs (Action.change f) (Action.change f) :=
  fun _ _ hr => .ok ⟨trivial, h hr⟩

theorem update {f : World → α × World} (h : Carries L.Rel P f) :
    L.Steps P (Action.update f) (Action.update f) := by
  intro w u hr
  obtain ⟨hp, he, hr⟩ := h hr
  show EndTogether _ _ (.ok (f w).1 (f w).2) (.ok (f u).1 (f u).2)
  rw [← he]
  exact .ok ⟨hp, hr⟩

theorem attempt {ε : Type} {wrap : ε → Error} (hwrap : ∀ e fault, wrap e ≠ .lex fault)
    {f : World → Except ε α × World}
    (h : Carries L.Rel (fun r => (∀ x, r = .ok x → P x) ∧
      ∀ e, r = .error e → ∀ s, wrap e ≠ .eval (.unboundLocal s)) f) :
    L.Steps P (Action.attempt wrap f) (Action.attempt wrap f) := by
  intro w u hr
  obtain ⟨⟨hok, herr⟩, he, hr⟩ := h hr
  unfold Action.attempt
  generalize hf : f w = fw at *
  generalize hg : f u = fu at *
  obtain ⟨x, w'⟩ := fw
  obtain ⟨y, u'⟩ := fu
  obtain rfl : x = y := he
  cases x with
  | ok x => exact .ok ⟨hok x rfl, hr⟩
  | error e =>
    exact .error ⟨permits_error (herr e rfl) fun fault hf => absurd hf (hwrap e fault), hr⟩

theorem forEach {f g : α → Action β} {as : List α} (h : ∀ a ∈ as, L.Steps Q (f a) (g a)) :
    L.Steps (fun bs => ∀ b ∈ bs, Q b) (Action.forEach f as) (Action.forEach g as) := by
  induction as with
  | nil => exact pure nofun
  | cons a as ih =>
    refine bind (h a (by simp)) fun b hb => ?_
    refine bind (ih fun a ha => h a (by simp [ha])) fun bs hbs => ?_
    exact pure (List.forall_mem_cons.mpr ⟨hb, hbs⟩)

/-! ## Elementary steps -/

theorem newObject_steps : L.Runs Action.newObject Action.newObject := update L.newObject

theorem allows_plain {v : Value} (h : v.refs = []) : L.Allows v := Value.Within.of_plain h

/-- All of the values may be used. -/
def AllowsAll (L : Lockstep here) (vs : List Value) : Prop := ∀ v ∈ vs, L.Allows v

theorem allowsAll_nil : L.AllowsAll [] := nofun

theorem AllowsAll.cons {v : Value} {vs : List Value} (hv : L.Allows v) (h : L.AllowsAll vs) :
    L.AllowsAll (v :: vs) :=
  List.forall_mem_cons.mpr ⟨hv, h⟩

theorem AllowsAll.head {v : Value} {vs : List Value} (h : L.AllowsAll (v :: vs)) : L.Allows v :=
  h v (by simp)

theorem AllowsAll.tail {v : Value} {vs : List Value} (h : L.AllowsAll (v :: vs)) :
    L.AllowsAll vs :=
  fun u hu => h u (by simp [hu])

theorem newList {items : List Value} (h : L.AllowsAll items) :
    L.Steps L.Allows (Action.newList items) (Action.newList items) :=
  bind newObject_steps fun _ _ => pure (Value.within_list.mpr h)

theorem newVector {items : List Value} (h : L.AllowsAll items) :
    L.Steps L.Allows (Action.newVector items) (Action.newVector items) :=
  bind newObject_steps fun _ _ => pure (Value.within_vector.mpr h)

theorem newMap {entries : List (Value × Value)} (h : Value.EntriesWithin L.mayUse entries) :
    L.Steps L.Allows (Action.newMap entries) (Action.newMap entries) :=
  bind newObject_steps fun _ _ => pure (Value.within_map.mpr h)

theorem newString (text : String) :
    L.Steps L.Allows (Action.newString text) (Action.newString text) :=
  bind newObject_steps fun _ _ => pure (allows_plain rfl)

/-! ## Threads -/

/-- A result that is no fault for want of a local name, and one of `P` if there is a value. -/
structure Gives (P : α → Prop) (r : Except EvalFault α) : Prop where
  value : ∀ x, r = .ok x → P x
  bound : ∀ e, r = .error e → ∀ s, e ≠ .unboundLocal s

theorem gives_ok {x : α} (h : P x) : Gives P (Except.ok x) :=
  ⟨fun _ hx => Except.ok.inj hx ▸ h, nofun⟩

theorem gives_error {e : EvalFault} (h : ∀ s, e ≠ .unboundLocal s) : Gives P (.error e) :=
  ⟨nofun, fun _ he => Except.error.inj he ▸ h⟩

theorem Gives.map {r : Except EvalFault α} {f : α → β} (h : Gives P r) (hf : ∀ x, P x → Q (f x)) :
    Gives Q (r.map f) := by
  cases r with
  | ok x => exact gives_ok (hf x (h.value x rfl))
  | error e => exact gives_error (h.bound e rfl)

/-- A step that may find a fault of evaluation. -/
theorem attemptEval {f : World → Except EvalFault α × World} (h : Carries L.Rel (Gives P) f) :
    L.Steps P (Action.attempt .eval f) (Action.attempt .eval f) := by
  refine attempt nofun fun w u hr => ?_
  obtain ⟨hg, he, hr⟩ := h hr
  exact ⟨⟨hg.value, fun e he s hs => hg.bound e he s (by simpa using hs)⟩, he, hr⟩

/-- What a thread state stands for is found alike. -/
theorem currentIn {state : ThreadState} (hv : L.mayUse (.var state.current)) ⦃w u : World⦄
    (h : L.Rel w u) : Gives (fun n => L.mayUse (.ns n)) (state.currentIn w) ∧
      state.currentIn w = state.currentIn u := by
  obtain ⟨he, hx⟩ := L.root h _ hv
  unfold ThreadState.currentIn
  rw [← he]
  refine ⟨?_, rfl⟩
  cases hroot : w.root state.current with
  | none => exact gives_error nofun
  | some x =>
    cases x with
    | ns n => exact gives_ok (Value.within_ns.mp (hx _ hroot))
    | _ => exact gives_error nofun

theorem currentNamespace :
    Carries L.Rel (Gives fun n => L.mayUse (.ns n)) (·.currentNamespace here) := by
  intro w u h
  obtain ⟨⟨-, hv⟩, hst, hr⟩ := L.threadState h
  unfold World.currentNamespace
  dsimp only at hst hr hv ⊢
  rw [← hst]
  obtain ⟨hg, he⟩ := currentIn hv hr
  exact ⟨hg, he, hr⟩

theorem switchNamespace (name : String) :
    Carries L.Rel (fun _ => True) (·.switchNamespace here name) := by
  intro w u h
  obtain ⟨hused, hn, hr⟩ := L.internNamespace name h
  obtain ⟨⟨hm, -⟩, hst, hr⟩ := L.threadState hr
  unfold World.switchNamespace
  dsimp only
  refine ⟨trivial, hn, ?_⟩
  rw [← hn, ← hst]
  exact L.setRoot _ _ hm (Value.within_ns.mpr hused) hr

theorem qualify (s : Symbol) :
    Carries L.Rel (Gives fun _ => True) (·.qualify here s) := by
  intro w u h
  obtain ⟨hg, hc, hr⟩ := currentNamespace h
  unfold World.qualify
  split
  · exact ⟨gives_ok trivial, rfl, h⟩
  · exact ⟨hg.map fun _ _ => trivial, congrArg (Except.map _) hc, hr⟩

/-- The var that is found, if any, may be used. -/
def MayRead (L : Lockstep here) (found : Option Var) : Prop :=
  ∀ v, found = some v → L.mayUse (.var v)

theorem findVar (s : Symbol) : Carries L.Rel (Gives L.MayRead) (·.findVar here s) := by
  intro w u h
  unfold World.findVar
  split
  · obtain ⟨hn, hused⟩ := L.findNamespace h s.ns
    dsimp only
    rw [← hn]
    cases hf : w.findNamespace? here.registry s.ns with
    | none => exact ⟨gives_ok nofun, rfl, h⟩
    | some n =>
      obtain ⟨hv, hread⟩ := L.findVarIn h n s (hused n hf)
      exact ⟨gives_ok hread, congrArg Except.ok hv, h⟩
  · obtain ⟨hg, hc, hr⟩ := currentNamespace h
    dsimp only at hg hc hr ⊢
    rw [← hc]
    refine ⟨hg.map fun n hn => (L.findVarIn hr n _ hn).2, ?_, hr⟩
    cases hn : (w.currentNamespace here).1 with
    | error e => rfl
    | ok n => exact congrArg Except.ok (L.findVarIn hr n _ (hg.value n hn)).1

/-! ## Reading -/

theorem readKeyword (s : Symbol) (auto : Bool) :
    Carries L.Rel (fun r => ∀ e, r = .error e → ∀ s, e ≠ .eval (.unboundLocal s))
      (·.readKeyword here s auto) := by
  intro w u h
  unfold World.readKeyword
  split
  · obtain ⟨-, hk, hr⟩ := L.internKeyword s h
    exact ⟨nofun, congrArg Except.ok hk, hr⟩
  · split
    · exact ⟨by rintro e ⟨⟩; nofun, rfl, h⟩
    · obtain ⟨hg, hc, hr⟩ := currentNamespace h
      dsimp only at hg hc hr ⊢
      generalize w.currentNamespace here = cw at *
      generalize u.currentNamespace here = cu at *
      obtain ⟨r, w'⟩ := cw
      obtain ⟨r', u'⟩ := cu
      obtain rfl : r = r' := hc
      cases r with
      | ok n =>
        obtain ⟨-, hk, hr⟩ := L.internKeyword (s.inNamespace n.name) hr
        exact ⟨nofun, congrArg Except.ok hk, hr⟩
      | error e =>
        refine ⟨?_, rfl, hr⟩
        rintro e' ⟨⟩ s' hs
        exact hg.bound e rfl s' (by simpa using hs)

/-- What has been read inside the open frames may be used. -/
def AllowsIn (L : Lockstep here) (frames : List Frame) : Prop :=
  ∀ b items, .group b items ∈ frames → L.AllowsAll items

theorem allowsIn_nil (L : Lockstep here) : L.AllowsIn [] := nofun

theorem AllowsIn.tail {frame : Frame} {frames : List Frame} (h : L.AllowsIn (frame :: frames)) :
    L.AllowsIn frames :=
  fun b items hmem => h b items (List.mem_cons_of_mem _ hmem)

theorem AllowsIn.group {b : Bracket} {items : List Value} {frames : List Frame}
    (hi : L.AllowsAll items) (h : L.AllowsIn frames) :
    L.AllowsIn (.group b items :: frames) := by
  intro b' items' hmem
  obtain heq | hmem := List.mem_cons.mp hmem
  · obtain ⟨-, rfl⟩ := Frame.group.inj heq
    exact hi
  · exact h b' items' hmem

/-- What a token leads to is nothing that may not be. -/
def AllowsStep (L : Lockstep here) : ReadStep → Prop
  | .form v => L.Allows v
  | .pending frames => L.AllowsIn frames
  | .refused e _ => ∀ s, e ≠ .eval (.unboundLocal s)

/-- A token leads to the same in related worlds. -/
def StepsAlike (r r' : ReadStep × World) : Prop :=
  r.1 = r'.1 ∧ L.Rel r.2 r'.2 ∧ L.AllowsStep r.1

theorem supply {v : Value} (hv : L.Allows v) {frames : List Frame} (hf : L.AllowsIn frames)
    ⦃w u : World⦄ (h : L.Rel w u) :
    L.StepsAlike (Reader.supply w v frames) (Reader.supply u v frames) := by
  induction frames generalizing v w u with
  | nil => exact ⟨rfl, h, hv⟩
  | cons frame frames ih =>
    cases frame with
    | quote =>
      obtain ⟨-, hn, hr⟩ := L.newObject h
      unfold Reader.supply
      dsimp only
      rw [← hn]
      refine ih (Value.within_list.mpr ?_) hf.tail hr
      exact List.forall_mem_cons.mpr ⟨allows_plain rfl, List.forall_mem_singleton.mpr hv⟩
    | group b items =>
      refine ⟨rfl, h, hf.tail.group ?_⟩
      exact List.forall_mem_cons.mpr ⟨hv, hf b items (by simp)⟩

theorem close (b : Bracket) {items : List Value} (hi : L.AllowsAll items)
    {frames : List Frame} (hf : L.AllowsIn frames) ⦃w u : World⦄ (h : L.Rel w u) :
    L.StepsAlike (Reader.close w b items frames) (Reader.close u b items frames) := by
  obtain ⟨-, hn, hr⟩ := L.newObject h
  unfold Reader.close
  split
  · dsimp only
    rw [← hn]
    exact supply (Value.within_list.mpr hi) hf hr
  · dsimp only
    rw [← hn]
    exact supply (Value.within_vector.mpr hi) hf hr
  · split
    · dsimp only
      rw [← hn]
      exact supply (Value.within_map.mpr (Value.entriesWithin_pairUp hi).entriesOf) hf hr
    · exact ⟨rfl, h, nofun⟩

theorem allows_ofSymbolText (text : String) : L.Allows (Value.ofSymbolText text) := by
  unfold Value.ofSymbolText
  split
  · exact allows_plain rfl
  · split
    · exact allows_plain rfl
    · split <;> exact allows_plain rfl

theorem step {frames : List Frame} (hf : L.AllowsIn frames) (t : Token) ⦃w u : World⦄
    (h : L.Rel w u) : L.StepsAlike (Reader.step w here frames t) (Reader.step u here frames t) := by
  have refused : ∀ fault : ParseFault, L.StepsAlike
      (.refused (.parse fault) (Reader.depth frames), w)
      (.refused (.parse fault) (Reader.depth frames), u) := fun fault => ⟨rfl, h, nofun⟩
  cases t with
  | int n => exact supply (allows_plain rfl) hf h
  | float x => exact supply (allows_plain rfl) hf h
  | str text =>
    obtain ⟨-, hn, hr⟩ := L.newObject h
    unfold Reader.step
    dsimp only
    rw [← hn]
    exact supply (allows_plain rfl) hf hr
  | symbol text => exact supply (allows_ofSymbolText text) hf h
  | keyword text auto =>
    obtain ⟨hb, hk, hr⟩ := readKeyword (Symbol.parse text) auto h
    unfold Reader.step
    dsimp only at hb hk hr ⊢
    generalize w.readKeyword here (Symbol.parse text) auto = kw at *
    generalize u.readKeyword here (Symbol.parse text) auto = ku at *
    obtain ⟨r, w'⟩ := kw
    obtain ⟨r', u'⟩ := ku
    obtain rfl : r = r' := hk
    cases r with
    | ok k => exact supply (allows_plain rfl) hf hr
    | error e => exact ⟨rfl, hr, hb e rfl⟩
  | quote =>
    refine ⟨rfl, h, fun b items hmem => hf b items ?_⟩
    simpa using hmem
  | opening b => exact ⟨rfl, h, hf.group nofun⟩
  | closing b =>
    unfold Reader.step
    dsimp only
    split
    · rename_i b' items outer
      split
      · refine close _ (fun v hv => ?_) hf.tail h
        exact hf b' items (by simp) v (List.mem_reverse.mp hv)
      · exact refused _
    · exact refused _

/-- A form that is read may be used, and no fault is for want of a local name. -/
def AllowsResult (L : Lockstep here) (r : Option (Except Error Value)) : Prop :=
  (∀ v, r = some (.ok v) → L.Allows v) ∧
    ∀ e, r = some (.error e) → ∀ s, e ≠ .eval (.unboundLocal s)

theorem allowsResult_error {e : Error} (h : ∀ s, e ≠ .eval (.unboundLocal s)) :
    L.AllowsResult (some (.error e)) :=
  ⟨nofun, by rintro e' ⟨⟩; exact h⟩

/-- A form is read alike. -/
theorem readFrom {frames : List Frame} (hf : L.AllowsIn frames) (lexemes : List Lexeme)
    ⦃w u : World⦄ (h : L.Rel w u) :
    (Reader.readFrom w here frames lexemes).result = (Reader.readFrom u here frames lexemes).result ∧
      (Reader.readFrom w here frames lexemes).rest = (Reader.readFrom u here frames lexemes).rest ∧
      L.Rel (Reader.readFrom w here frames lexemes).world
        (Reader.readFrom u here frames lexemes).world ∧
      L.AllowsResult (Reader.readFrom w here frames lexemes).result := by
  induction lexemes generalizing frames w u with
  | nil =>
    cases frames with
    | nil => exact ⟨rfl, rfl, h, nofun, nofun⟩
    | cons frame frames => exact ⟨rfl, rfl, h, allowsResult_error nofun⟩
  | cons l lexemes ih =>
    simp only [Reader.readFrom]
    cases l.result with
    | error e => exact ⟨rfl, rfl, h, allowsResult_error nofun⟩
    | ok t =>
      obtain ⟨hs, hr, ha⟩ := step hf t h
      dsimp only
      generalize Reader.step w here frames t = sw at *
      generalize Reader.step u here frames t = su at *
      obtain ⟨r, w'⟩ := sw
      obtain ⟨r', u'⟩ := su
      obtain rfl : r = r' := hs
      cases r with
      | form v => exact ⟨rfl, rfl, hr, by rintro v' ⟨⟩; exact ha, nofun⟩
      | pending frames => exact ih ha hr
      | refused e d => exact ⟨rfl, rfl, hr, allowsResult_error ha⟩

theorem take (lexemes : List Lexeme) :
    Carries L.Rel (fun r => L.AllowsResult r.1) (Reader.take · here lexemes) := by
  intro w u h
  obtain ⟨hv, hl, hr, ha⟩ := readFrom (L.allowsIn_nil) lexemes h
  refine ⟨ha, ?_, hr⟩
  unfold Reader.take Reader.next
  dsimp only
  rw [hv, hl]

end Lockstep

end SmallLisp
