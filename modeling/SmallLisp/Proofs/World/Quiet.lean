import SmallLisp.Proofs.World.Places

/-!
# What interns names and nothing more

A world may go on to another one where no var has changed, no namespace has been made, every thread is where it
was, and what is new are unbound vars in the current namespace of one thread, under given names (`World.Quiet`).
So does it by the names that are interned there, as long as the registry is in use (`World.InUse`): a thread that
uses it for the first time then finds the core namespace and the var of the switching function, and gets nothing
but a var of its own, which says that it is in the core namespace, where it is said to be before.
-/

namespace SmallLisp.World

variable {w u x : World} {here there : Site} {names : List Symbol} {n : Namespace} {s t : Symbol} {v : Var}

/-- Everything stands under its own name, and some thread uses the registry. -/
structure InUse (w : World) (r : RegistryId) : Prop extends Registered w where
  used : ∃ t state, (w.registry r).threads.lookup t = some state

/-- The symbol is one of the names in the current namespace of the thread, and stands for a var of the given one: of
that which the registry has under the name of the current one, and of the current one itself if the registry has
it. -/
def NamedHere (w : World) (here : Site) (names : List Symbol) (n : Namespace) (s : Symbol) : Prop :=
  ∃ current, (w.currentNamespace here).1 = .ok current ∧
    w.findNamespace? here.registry current.name = some n ∧ (w.HasNamespace here.registry current → n = current) ∧
    ∃ t ∈ names, s = t.inNamespace current.name

/-- The var is new and unbound, under a symbol that is named there. -/
structure Introduces (w u : World) (here : Site) (names : List Symbol) (n : Namespace) (s : Symbol) (v : Var) :
    Prop where
  new : w.NewVar u v
  fresh : w.findVarIn? n s = none
  name : v.name = s
  unbound : u.cell v = ⟨n, none, none⟩
  place : w.NamedHere here names n s

/-- The second world differs from the first one by interned keywords, numbers of objects, and unbound vars in the
current namespace that have such names; and by the var that the thread has got if it had not used the registry
before. -/
structure Quiet (w u : World) (here : Site) (names : List Symbol) : Prop where
  /-- What stands in a table stands there still. -/
  keeps : w.Keeps u
  registered : u.Registered
  /-- The vars that were there have their values and metadata. -/
  cell : ∀ {v : Var}, v.id < w.cells.size → u.cell v = w.cell v
  closures : u.closures = w.closures
  output : u.output = w.output
  nextName : u.nextName = w.nextName
  /-- The registries have the same namespaces, and no other has been made. -/
  namespaces : ∀ q, (u.registry q).namespaces = (w.registry q).namespaces
  tables_size : u.tables.size = w.tables.size
  /-- The other registries are not touched at all. -/
  registry : ∀ {q}, q ≠ here.registry → u.registry q = w.registry q
  /-- All threads are in the namespaces they were in. -/
  places : ∀ there, (u.currentNamespace there).1 = (w.currentNamespace there).1
  /-- What is new in the tables has been introduced in the current namespace. -/
  table : ∀ n, ∃ new, u.table n = new ++ w.table n ∧
    ∀ e ∈ new, ∃ m, m.id = n.id ∧ w.Introduces u here names m e.1 e.2
  /-- There are no other new vars, but for that of a thread that had no state. -/
  var : ∀ v, w.NewVar u v → (∃ n s v', v'.id = v.id ∧ (s, v') ∈ u.table n ∧ w.Introduces u here names n s v') ∨
    w.threadState? here = none ∧ ∃ state, u.threadState? here = some state ∧ state.current.id = v.id

namespace InUse

variable {r : RegistryId}

theorem lt (h : w.InUse r) : r < w.registries.size := by
  obtain ⟨t, state, hstate⟩ := h.used
  exact lt_of_thread (mem_of_lookup hstate)

/-- The registry has the core namespace, and in it the var of the switching function. -/
theorem core (h : w.InUse r) :
    ∃ n v, w.findNamespace? r coreName = some n ∧ w.findVarIn? n switchSymbol = some v := by
  obtain ⟨t, state, hstate⟩ := h.used
  have hcore := h.thread (mem_of_lookup hstate)
  exact ⟨_, _, hcore.found, hcore.switch⟩

/-- The registry stays in use. -/
theorem keeps (h : w.InUse r) (hk : w.Keeps u) (hu : u.Registered) : u.InUse r where
  toRegistered := hu
  used := by
    obtain ⟨t, state, hstate⟩ := h.used
    exact ⟨t, state, (hk.registry h.lt).threads t state hstate⟩

end InUse

theorem findNamespace_congr {r : RegistryId} {name : String}
    (h : (u.registry r).namespaces = (w.registry r).namespaces) : u.findNamespace? r name = w.findNamespace? r name :=
  congrArg (List.lookup name) h

/-- A thread keeps its state. -/
theorem Keeps.state (hk : w.Keeps u) {state : ThreadState} (h : w.threadState? here = some state) :
    u.threadState? here = some state :=
  (hk.registry (lt_of_thread (mem_of_lookup h))).threads _ _ h

/-- A thread is where it was if it has the same state or none, in the same registry. -/
theorem place_congr (hstate : u.threadState? there = w.threadState? there)
    (hroot : ∀ state, w.threadState? there = some state → u.cell state.current = w.cell state.current)
    (hn : (u.registry there.registry).namespaces = (w.registry there.registry).namespaces)
    (ht : u.tables.size = w.tables.size) : (u.currentNamespace there).1 = (w.currentNamespace there).1 := by
  cases hw : w.threadState? there with
  | some state =>
    rw [place_of_some hw, place_of_some (hstate.trans hw)]
    unfold ThreadState.currentIn
    rw [root_congr (hroot state hw)]
  | none =>
    -- It would be given the core namespace, which would be made under the same number.
    rw [currentNamespace_first hw, currentNamespace_first (hstate.trans hw)]
    unfold internCore internNamespace
    rw [findNamespace_congr hn]
    cases w.findNamespace? there.registry coreName with
    | some n => rfl
    | none => exact congrArg (fun id => Except.ok (Namespace.mk id coreName)) ht

/-- Interning leaves a thread where it was that has the same state or none. -/
theorem Registered.place_of_interns {r : RegistryId} (h : w.Registered) (hi : w.Interns r u)
    (hstate : u.threadState? there = w.threadState? there)
    (hn : (u.registry there.registry).namespaces = (w.registry there.registry).namespaces)
    (ht : u.tables.size = w.tables.size) : (u.currentNamespace there).1 = (w.currentNamespace there).1 :=
  place_congr hstate (fun _ hstate => hi.cell (h.var_lt (.thread (mem_of_lookup hstate) rfl))) hn ht

/-- The number of the one new var. -/
theorem NewVar.id_eq (h : w.NewVar u v) (hsize : u.cells.size = w.cells.size + 1) : w.cells.size = v.id := by
  have hlt : v.id < w.cells.size + 1 := hsize ▸ h.2
  exact Nat.le_antisymm h.1 (Nat.le_of_lt_succ hlt)

namespace Introduces

/-- What has been introduced stays unbound while nothing changes. -/
theorem later (h : w.Introduces u here names n s v) (hx : u.Quiet x here names) :
    w.Introduces x here names n s v where
  new := ⟨h.new.1, Nat.lt_of_lt_of_le h.new.2 hx.keeps.cells_le⟩
  fresh := h.fresh
  name := h.name
  unbound := (hx.cell h.new.2).trans h.unbound
  place := h.place

/-- What is introduced later was not there before, and the current namespace was the same. -/
theorem earlier (h : u.Introduces x here names n s v) (hu : w.Quiet u here names) :
    w.Introduces x here names n s v where
  new := ⟨Nat.le_trans hu.keeps.cells_le h.new.1, h.new.2⟩
  fresh := by
    cases hfound : w.findVarIn? n s with
    | none => rfl
    | some v' =>
      have hkept := hu.keeps.var hfound
      rw [h.fresh] at hkept
      cases hkept
  name := h.name
  unbound := h.unbound
  place := by
    obtain ⟨current, hcurrent, hn, hself, hnamed⟩ := h.place
    refine ⟨current, (hu.places here).symm.trans hcurrent, ?_, fun hhas => hself ?_, hnamed⟩
    · rwa [findNamespace_congr (hu.namespaces here.registry)] at hn
    · exact (Registered.hasNamespace_congr hu.namespaces).mpr hhas

end Introduces

namespace Quiet

/-- Neither vars nor namespaces are made, and no thread gets a state. -/
theorem of_same (hk : w.Keeps u) (hu : u.Registered) (hc : u.cells = w.cells) (ht : u.tables = w.tables)
    (hf : u.closures = w.closures) (ho : u.output = w.output) (hx : u.nextName = w.nextName)
    (hn : ∀ q, (u.registry q).namespaces = (w.registry q).namespaces)
    (hthreads : ∀ q, (u.registry q).threads = (w.registry q).threads)
    (hr : ∀ {q}, q ≠ here.registry → u.registry q = w.registry q) : w.Quiet u here names := by
  have hcell : ∀ v, u.cell v = w.cell v := fun v => by
    unfold World.cell
    rw [hc]
  have htable : ∀ n, u.table n = [] ++ w.table n := fun n => by
    unfold World.table
    rw [ht]
    rfl
  have hsize := congrArg Array.size ht
  refine ⟨hk, hu, fun _ => hcell _, hf, ho, hx, hn, hsize, hr, fun there => ?_, fun n => ⟨[], htable n, nofun⟩,
    fun v hv => absurd (hc ▸ hv.2) (Nat.not_lt.mpr hv.1)⟩
  exact place_congr (congrArg (List.lookup there.thread) (hthreads there.registry)) (fun _ _ => hcell _)
    (hn there.registry) hsize

theorem refl (h : w.Registered) : w.Quiet w here names :=
  .of_same (.refl w) h rfl rfl rfl rfl rfl (fun _ => rfl) (fun _ => rfl) fun _ => rfl

theorem trans (h : w.Quiet u here names) (h' : u.Quiet x here names) : w.Quiet x here names where
  keeps := h.keeps.trans h'.keeps
  registered := h'.registered
  cell hv := (h'.cell (Nat.lt_of_lt_of_le hv h.keeps.cells_le)).trans (h.cell hv)
  closures := h'.closures.trans h.closures
  output := h'.output.trans h.output
  nextName := h'.nextName.trans h.nextName
  namespaces q := (h'.namespaces q).trans (h.namespaces q)
  tables_size := h'.tables_size.trans h.tables_size
  registry hq := (h'.registry hq).trans (h.registry hq)
  places there := (h'.places there).trans (h.places there)
  table n := by
    obtain ⟨new, htable, hnew⟩ := h.table n
    obtain ⟨new', htable', hnew'⟩ := h'.table n
    refine ⟨new' ++ new, by rw [htable', htable, List.append_assoc], fun e he => ?_⟩
    obtain he | he := List.mem_append.mp he
    · obtain ⟨m, hm, hintroduced⟩ := hnew' e he
      exact ⟨m, hm, hintroduced.earlier h⟩
    · obtain ⟨m, hm, hintroduced⟩ := hnew e he
      exact ⟨m, hm, hintroduced.later h'⟩
  var v hv := by
    by_cases hlt : v.id < u.cells.size
    · obtain ⟨n, s, v', hid, hmem, hintroduced⟩ | ⟨hnone, state, hstate, hid⟩ := h.var v ⟨hv.1, hlt⟩
      · obtain ⟨new', htable', -⟩ := h'.table n
        exact .inl ⟨n, s, v', hid, htable' ▸ List.mem_append_right new' hmem, hintroduced.later h'⟩
      · exact .inr ⟨hnone, state, h'.keeps.state hstate, hid⟩
    · obtain ⟨n, s, v', hid, hmem, hintroduced⟩ | ⟨hnone, state, hstate, hid⟩ :=
        h'.var v ⟨Nat.le_of_not_lt hlt, hv.2⟩
      · exact .inl ⟨n, s, v', hid, hmem, hintroduced.earlier h⟩
      · refine .inr ⟨?_, state, hstate, hid⟩
        cases hw : w.threadState? here with
        | none => rfl
        | some state' =>
          rw [h.keeps.state hw] at hnone
          cases hnone

end Quiet

/-! ## Interning -/

namespace Registered

variable (h : w.Registered)
include h

theorem quiet_newObject : w.Quiet w.newObject.2 here names :=
  .of_same ((w.keeping here).newObject (.refl w)) ((Registered.kept here).newObject h) rfl rfl rfl rfl rfl
    (fun _ => rfl) (fun _ => rfl) fun _ => rfl

theorem quiet_internKeyword (s : Symbol) : w.Quiet (w.internKeyword here.registry s).2 here names := by
  have hi := w.interns_internKeyword here.registry s
  have hk := w.keeps_internKeyword here.registry s
  have hu := h.internKeyword here.registry s
  unfold World.internKeyword at *
  split at hi
  · exact .refl h
  · rename_i hnew
    rw [hnew] at hk hu
    refine .of_same hk hu rfl rfl rfl rfl rfl (fun q => ?_) (fun q => ?_) fun hq => hi.registry hq
    all_goals
      rw [registry_modifyRegistry]
      split <;> rfl

end Registered

theorem internVarIn_of_new (h : w.findVarIn? n s = none) :
    w.internVarIn n s = (⟨w.cells.size, s⟩, { w with
      cells := w.cells.push ⟨n, none, none⟩
      tables := w.tables.modify n.id ((s, ⟨w.cells.size, s⟩) :: ·) }) := by
  unfold internVarIn
  rw [h]

theorem table_internVarIn_of_new (h : w.findVarIn? n s = none) (m : Namespace) :
    (w.internVarIn n s).2.table m =
      if n.id = m.id ∧ m.id < w.tables.size then (s, ⟨w.cells.size, s⟩) :: w.table m else w.table m := by
  rw [internVarIn_of_new h]
  exact table_enter ..

/-- The one var that is made for a new symbol. -/
theorem introduces_internVarIn (hnew : w.findVarIn? n s = none) (hplace : w.NamedHere here names n s) :
    w.Introduces (w.internVarIn n s).2 here names n s ⟨w.cells.size, s⟩ where
  new := by
    rw [internVarIn_of_new hnew]
    exact ⟨Nat.le_refl _, by simp⟩
  fresh := hnew
  name := rfl
  unbound := by
    rw [internVarIn_of_new hnew]
    unfold cell
    dsimp only
    rw [Array.getElem?_push_size]
    rfl
  place := hplace

namespace InUse

/-- A thread that begins to use the registry gets a var of its own. -/
theorem threadState_of_none (hnone : w.threadState? here = none)
    (hcore : w.findNamespace? here.registry coreName = some n) (hswitch : w.findVarIn? n switchSymbol = some v) :
    w.threadState here = (⟨⟨w.cells.size, currentSymbol⟩, v⟩,
      ({ w with cells := w.cells.push ⟨n, some (.ns n), none⟩ } : World).modifyRegistry here.registry
        (·.addThread here.thread ⟨⟨w.cells.size, currentSymbol⟩, v⟩)) := by
  have hfound : (w.newPrivateVar n currentSymbol (some (.ns n))).2.findVarIn? n switchSymbol = some v := hswitch
  unfold threadState
  rw [hnone]
  unfold defaultThreadState internCore
  rw [w.internNamespace_of_find _ hcore]
  dsimp only
  rw [internVarIn_of_find _ hfound]
  rfl

variable (h : w.InUse here.registry)
include h

/-- The first use of the registry by a thread. -/
theorem quiet_threadState : w.Quiet (w.threadState here).2 here names := by
  have hi := interns_threadState h.toApart here
  have hk := w.keeps_threadState here
  have hu := h.threadState here
  have hasked := w.threadState?_threadState h.lt
  have hothers : ∀ {there}, there ≠ here → (w.threadState here).2.threadState? there = w.threadState? there :=
    Settled.threadState?_of_ne w
  cases hw : w.threadState? here with
  | some state =>
    unfold threadState
    rw [hw]
    exact .refl h.toRegistered
  | none =>
    obtain ⟨n, switch, hcore, hswitch⟩ := h.core
    have hplace := place_of_some hasked
    rw [threadState_of_none hw hcore hswitch] at *
    dsimp only at *
    have hnamespaces : ∀ q, ((({ w with cells := w.cells.push ⟨n, some (.ns n), none⟩ } : World).modifyRegistry
        here.registry (·.addThread here.thread ⟨⟨w.cells.size, currentSymbol⟩, switch⟩)).registry q).namespaces =
          (w.registry q).namespaces := fun q => by
      rw [registry_modifyRegistry]
      split <;> rfl
    refine ⟨hk, hu, hi.cell, hi.closures, rfl, rfl, hnamespaces, rfl, hi.registry, fun there => ?_,
      fun n => ⟨[], rfl, nofun⟩, fun v hv => .inr ⟨hw, _, hasked, hv.id_eq (Array.size_push ..)⟩⟩
    by_cases heq : there = here
    · -- It is said to be in the core namespace already.
      subst heq
      rw [hplace, place_of_none hw hcore]
      unfold ThreadState.currentIn root cell modifyRegistry
      dsimp only
      rw [Array.getElem?_push_size]
      rfl
    · exact h.place_of_interns hi (hothers heq) (hnamespaces there.registry) rfl

/-- A var is interned under a symbol that is named there. -/
theorem quiet_internVarIn (hplace : w.NamedHere here names n s) (hi : w.Interns here.registry (w.internVarIn n s).2)
    (hu : (w.internVarIn n s).2.Registered) : w.Quiet (w.internVarIn n s).2 here names := by
  have hk := w.keeps_internVarIn n s
  have hregistry := fun q => w.registry_internVarIn q n s
  have hlt : n.id < w.tables.size := by
    obtain ⟨current, -, hn, -⟩ := hplace
    exact h.namespace_lt (hasNamespace_of_find hn)
  cases hnew : w.findVarIn? n s with
  | some v =>
    rw [internVarIn_of_find _ hnew]
    exact .refl h.toRegistered
  | none =>
    have hintroduced := introduces_internVarIn hnew hplace
    have htable := table_internVarIn_of_new hnew
    have hcells : (w.internVarIn n s).2.cells.size = w.cells.size + 1 := by
      rw [internVarIn_of_new hnew]
      exact Array.size_push ..
    have htables : (w.internVarIn n s).2.tables.size = w.tables.size := by
      rw [internVarIn_of_new hnew]
      exact Array.size_modify ..
    have hout : (w.internVarIn n s).2.output = w.output := by rw [internVarIn_of_new hnew]
    have hnext : (w.internVarIn n s).2.nextName = w.nextName := by rw [internVarIn_of_new hnew]
    generalize (w.internVarIn n s).2 = u at *
    refine ⟨hk, hu, hi.cell, hi.closures, hout, hnext, fun q => congrArg Registry.namespaces (hregistry q), htables,
      hi.registry, fun there => ?_, fun m => ?_, fun v hv => .inl ⟨n, s, _, hv.id_eq hcells, ?_, hintroduced⟩⟩
    · refine h.place_of_interns hi ?_ (congrArg Registry.namespaces (hregistry there.registry)) htables
      unfold threadState?
      rw [hregistry]
    · rw [htable]
      split
      · rename_i hid
        exact ⟨[_], rfl, List.forall_mem_singleton.mpr ⟨n, hid.1, hintroduced⟩⟩
      · exact ⟨[], rfl, nofun⟩
    · rw [htable, if_pos ⟨rfl, hlt⟩]
      exact List.mem_cons_self ..

/-- A var of the current namespace that has one of the names is interned. -/
theorem quiet_internVar {current : Namespace} (hcurrent : (w.currentNamespace here).1 = .ok current)
    (ht : t ∈ names) :
    w.Quiet (w.internVar here.registry (t.inNamespace current.name)).2 here names := by
  have hi := interns_internVar h.toApart here.registry (t.inNamespace current.name)
  have hu := h.internVar here.registry (t.inNamespace current.name)
  obtain ⟨fault, heq⟩ | ⟨n, hs, hn⟩ := w.internVar_cases here.registry (t.inNamespace current.name)
  · rw [heq]
    exact .refl h.toRegistered
  · rw [w.internVar_of_find _ hs hn] at *
    refine h.quiet_internVarIn ⟨current, hcurrent, hn, fun ⟨name, hmem⟩ => ?_, t, ht, rfl⟩ hi hu
    -- The registry has each of its namespaces under its own name.
    have hname := (h.named here.registry).namespace_name hmem
    have hfound : w.findNamespace? here.registry name = some current :=
      lookup_of_mem (h.named here.registry).namespace_keys hmem
    exact Option.some.inj (hn.symm.trans (hname ▸ hfound))

end InUse

end SmallLisp.World
