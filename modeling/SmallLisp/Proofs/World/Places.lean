import SmallLisp.Proofs.World.Creation
import SmallLisp.Proofs.World.Image

/-!
# Where threads are

In a world with core namespaces (`World.Settled`) every thread has a current namespace in every registry,
unless the root of its var is overwritten from elsewhere. Interning, printing, the first use of a registry by
a thread, and binding or marking any other var leave all threads where they are (`World.Undisturbed`).
Switching moves the one thread in the one registry (`Settled.switchNamespace`), and new registries and
copies begin where `Settled.newRegistry` and `Settled.copyRegistry` say.
-/

namespace SmallLisp.World

variable {w u x : World} {here there : Site} {r : RegistryId}

/-- All vars by which threads have their current namespaces are called the same. -/
def NamesCurrents (w : World) : Prop :=
  ∀ r t state, (t, state) ∈ (w.registry r).threads → state.current.name = currentSymbol

/-- Everything stands under its own name, as do the vars by which threads have their current namespaces, and
every registry has a core namespace. -/
structure Settled (w : World) : Prop extends Registered w where
  core : ∀ {r}, r < w.registries.size → ∃ n, w.findNamespace? r coreName = some n
  currents : w.NamesCurrents

/-- The same registries have been made, they hold what they held, and all threads are where they were. -/
structure Undisturbed (w u : World) : Prop where
  keeps : w.Keeps u
  registered : u.Registered
  currents : u.NamesCurrents
  size : u.registries.size = w.registries.size
  places : ∀ there, there.registry < w.registries.size →
    (u.currentNamespace there).1 = (w.currentNamespace there).1

/-- A thread has its current namespace by this var. -/
def IsCurrent (w : World) (v : Var) : Prop :=
  ∃ r t state, (t, state) ∈ (w.registry r).threads ∧ state.current.id = v.id

theorem Undisturbed.trans (h : w.Undisturbed u) (h' : u.Undisturbed x) : w.Undisturbed x where
  keeps := h.keeps.trans h'.keeps
  registered := h'.registered
  currents := h'.currents
  size := h'.size.trans h.size
  places there hr := (h'.places there (h.size ▸ hr)).trans (h.places there hr)

theorem place_of_some {state : ThreadState} (hstate : w.threadState? here = some state) :
    (w.currentNamespace here).1 = state.currentIn w := by
  rw [fst_currentNamespace, hstate]

theorem place_of_none {n : Namespace} (hnone : w.threadState? here = none)
    (hn : w.findNamespace? here.registry coreName = some n) : (w.currentNamespace here).1 = .ok n := by
  rw [fst_currentNamespace, hnone]
  dsimp only
  unfold internCore
  rw [w.internNamespace_of_find _ hn]

namespace Settled

variable (h : w.Settled)
include h

theorem undisturbed_self : w.Undisturbed w := ⟨.refl w, h.toRegistered, h.currents, rfl, fun _ _ => rfl⟩

theorem of_undisturbed (hu : w.Undisturbed u) : u.Settled where
  toRegistered := hu.registered
  core hr := by
    have hr := hu.size ▸ hr
    obtain ⟨n, hn⟩ := h.core hr
    exact ⟨n, hu.keeps.find hn⟩
  currents := hu.currents

/-- A thread is where it was if it has the same state or none, and the root of its var is the same. -/
theorem place_eq (hk : w.Keeps u) (hr : there.registry < w.registries.size)
    (hstate : u.threadState? there = w.threadState? there)
    (hroot : ∀ state, w.threadState? there = some state → u.root state.current = w.root state.current) :
    (u.currentNamespace there).1 = (w.currentNamespace there).1 := by
  cases hw : w.threadState? there with
  | some state =>
    rw [place_of_some hw, place_of_some (hstate.trans hw)]
    unfold ThreadState.currentIn
    rw [hroot state hw]
  | none =>
    -- A thread that has no state yet is in the core namespace, which is kept.
    obtain ⟨n, hn⟩ := h.core hr
    rw [place_of_none hw hn, place_of_none (hstate.trans hw) (hk.find hn)]

/-- So all threads are if no state and no root of a current var is changed. -/
theorem undisturbed_of_same (hk : w.Keeps u) (hu : u.Registered) (hs : u.registries.size = w.registries.size)
    (hthreads : ∀ q, (u.registry q).threads = (w.registry q).threads)
    (hroot : ∀ v, w.IsCurrent v → u.root v = w.root v) : w.Undisturbed u := by
  refine ⟨hk, hu, fun r t state hmem => h.currents r t state (hthreads r ▸ hmem), hs,
    fun there hr => h.place_eq hk hr ?_ fun state hstate => ?_⟩
  · unfold threadState?
    rw [hthreads]
  · exact hroot _ ⟨_, _, state, mem_of_lookup hstate, rfl⟩

theorem current_lt {v : Var} (hv : w.IsCurrent v) : v.id < w.cells.size := by
  obtain ⟨r, t, state, hmem, heq⟩ := hv
  exact heq ▸ h.var_lt (.thread hmem rfl)

theorem root_of_interns (hi : w.Interns r u) {v : Var} (hv : w.IsCurrent v) : u.root v = w.root v :=
  root_congr (hi.cell (h.current_lt hv))

/-! ## What leaves all threads where they are -/

theorem undisturbed_of_unchanged (hc : u.cells = w.cells) (ht : u.tables = w.tables)
    (hr : u.registries = w.registries) : w.Undisturbed u := by
  have hregistry : ∀ q, u.registry q = w.registry q := fun q => by
    unfold registry
    rw [hr]
  refine h.undisturbed_of_same ?_ (h.of_unchanged hc ht hr) (congrArg Array.size hr)
    (fun q => by rw [hregistry]) fun v _ => ?_
  · exact .of_grows (congrArg Array.size hr) (fun q => by rw [hregistry]; exact .refl _) ht hc
  · unfold root cell
    rw [hc]

theorem undisturbed_internKeyword (r : RegistryId) (s : Symbol) : w.Undisturbed (w.internKeyword r s).2 := by
  refine h.undisturbed_of_same (w.keeps_internKeyword r s) (h.internKeyword r s) ?_ (fun q => ?_) fun v hv =>
    h.root_of_interns (w.interns_internKeyword r s) hv
  · unfold World.internKeyword
    split
    · rfl
    · exact size_registries_modifyRegistry ..
  · unfold World.internKeyword
    split
    · rfl
    · dsimp only
      rw [registry_modifyRegistry]
      split <;> rfl

theorem undisturbed_internNamespace (r : RegistryId) (name : String) :
    w.Undisturbed (w.internNamespace r name).2 :=
  h.undisturbed_of_same (w.keeps_internNamespace r name) (h.internNamespace r name) (by simp)
    (fun q => w.threads_internNamespace r q name) fun _ hv =>
      h.root_of_interns (w.interns_internNamespace r name) hv

theorem undisturbed_internVar (r : RegistryId) (s : Symbol) : w.Undisturbed (w.internVar r s).2 := by
  refine h.undisturbed_of_same (w.keeps_internVar r s) (h.internVar r s) ?_
    (fun q => by rw [registry_internVar]) fun _ hv => h.root_of_interns (interns_internVar h.toApart r s) hv
  obtain ⟨fault, heq⟩ | ⟨n, hs, hn⟩ := w.internVar_cases r s
  · rw [heq]
  · rw [w.internVar_of_find r hs hn]
    simp

/-- A var that is no current one may be bound. -/
theorem undisturbed_setRoot {v : Var} (hv : ¬ w.IsCurrent v) (y : Value) : w.Undisturbed (w.setRoot v y) := by
  refine h.undisturbed_of_same (w.keeps_setRoot v y) (h.setRoot v y) rfl (fun _ => rfl) fun v' hv' => ?_
  have hne : v.id ≠ v'.id := by
    intro heq
    obtain ⟨r, t, state, hmem, hid⟩ := hv'
    exact hv ⟨r, t, state, hmem, hid.trans heq.symm⟩
  unfold root
  rw [cell_setRoot hne]

theorem undisturbed_setMetadata (v : Var) (y : Value) : w.Undisturbed (w.setMetadata v y) := by
  refine h.undisturbed_of_same (w.keeps_setMetadata v y) (h.setMetadata v y) rfl (fun _ => rfl) fun v' _ => ?_
  unfold root cell World.setMetadata
  dsimp only
  rw [Array.getElem?_modify]
  split
  · cases w.cells[v'.id]? <;> rfl
  · rfl

omit h in
/-- The state of a thread is no concern of another one, nor in another registry. -/
theorem threadState?_of_ne (w : World) (hne : there ≠ here) :
    (w.threadState here).2.threadState? there = w.threadState? there := by
  unfold threadState
  cases hstate : w.threadState? here with
  | some state => rfl
  | none =>
    have hthreads := w.threads_defaultThreadState here.registry there.registry
    generalize w.defaultThreadState here.registry = made at hthreads ⊢
    unfold threadState?
    dsimp only
    rw [registry_modifyRegistry]
    split
    · rename_i hq
      have ht : there.thread ≠ here.thread := by
        intro ht
        apply hne
        cases there
        cases here
        exact congrArg₂ Site.mk hq.1 ht
      show ((here.thread, made.1) :: (made.2.registry there.registry).threads).lookup there.thread = _
      rw [List.lookup_cons, beq_false_of_ne ht, hthreads]
    · rw [hthreads]

theorem currents_threadState (here : Site) : (w.threadState here).2.NamesCurrents := by
  intro r t state hmem
  unfold World.threadState at hmem
  split at hmem
  · exact h.currents r t state hmem
  · have hthreads := w.threads_defaultThreadState here.registry r
    dsimp only at hmem
    rw [registry_modifyRegistry] at hmem
    split at hmem
    · obtain heq | hmem := List.mem_cons.mp hmem
      · obtain rfl := congrArg Prod.snd heq
        rfl
      · exact h.currents r t state (hthreads ▸ hmem)
    · exact h.currents r t state (hthreads ▸ hmem)

/-- A thread that begins to use a registry is in the core namespace, as it was said to be before. -/
theorem undisturbed_threadState (here : Site) : w.Undisturbed (w.threadState here).2 := by
  have hinterns := interns_threadState h.toApart here
  refine ⟨w.keeps_threadState here, h.threadState here, h.currents_threadState here, by simp,
    fun there hr => ?_⟩
  by_cases heq : there = here
  · -- To ask where the thread is had given it the same state.
    subst heq
    exact place_of_some (w.threadState?_threadState hr)
  · refine h.place_eq (w.keeps_threadState here) hr (threadState?_of_ne w heq) fun state hstate => ?_
    exact h.root_of_interns hinterns ⟨_, _, state, mem_of_lookup hstate, rfl⟩

theorem undisturbed_readKeyword (here : Site) (s : Symbol) (auto : Bool) :
    w.Undisturbed (w.readKeyword here s auto).2 := by
  unfold World.readKeyword
  split
  · exact h.undisturbed_internKeyword here.registry s
  · split
    · exact h.undisturbed_self
    · have hstate := h.undisturbed_threadState here
      unfold World.currentNamespace
      dsimp only
      cases (w.threadState here).1.currentIn (w.threadState here).2 with
      | ok n => exact hstate.trans ((h.of_undisturbed hstate).undisturbed_internKeyword _ _)
      | error fault => exact hstate

end Settled

/-! ## Switching -/

/-- Two threads, or a thread in two registries, do not share the var of their current namespace. -/
theorem Registered.current_ne (h : w.Registered) {state state' : ThreadState}
    (hstate : w.threadState? here = some state) (hstate' : w.threadState? there = some state')
    (hne : there ≠ here) : state.current.id ≠ state'.current.id := by
  intro heq
  have hmem := mem_of_lookup hstate
  have hmem' := mem_of_lookup hstate'
  have hr : here.registry = there.registry := h.var_eq (.thread hmem rfl) (.thread hmem' rfl) heq
  have ht : here.thread = there.thread := h.same_current hmem (hr ▸ hmem') heq
  apply hne
  cases here
  cases there
  exact congrArg₂ Site.mk hr.symm ht.symm

/-- The thread has gone to the namespace of this name, which the registry holds; all others are where they
were, as it is itself in other registries. -/
structure Moved (w u : World) (here : Site) (name : String) : Prop where
  keeps : w.Keeps u
  registered : u.Registered
  currents : u.NamesCurrents
  size : u.registries.size = w.registries.size
  there : ∃ n, (u.currentNamespace here).1 = .ok n ∧ u.findNamespace? here.registry name = some n
  others : ∀ there, there ≠ here → there.registry < w.registries.size →
    (u.currentNamespace there).1 = (w.currentNamespace there).1

theorem Settled.of_moved {name : String} (h : w.Settled) (hu : w.Moved u here name) : u.Settled where
  toRegistered := hu.registered
  core hr := by
    have hr := hu.size ▸ hr
    obtain ⟨n, hn⟩ := h.core hr
    exact ⟨n, hu.keeps.find hn⟩
  currents := hu.currents

/-- A thread that switches to a namespace moves there, and no other one does. -/
theorem Settled.switchNamespace (h : w.Settled) (hr : here.registry < w.registries.size) (name : String) :
    w.Moved (w.switchNamespace here name).2 here name := by
  have hspace := h.undisturbed_internNamespace here.registry name
  have hfound := find_internNamespace w hr name
  -- The namespace is interned, the thread gets its state, and the root of its var is set: three worlds.
  unfold World.switchNamespace
  dsimp only
  generalize (w.internNamespace here.registry name).1 = n at *
  generalize (w.internNamespace here.registry name).2 = u at *
  have hstate := (h.of_undisturbed hspace).undisturbed_threadState here
  have hlt : here.registry < u.registries.size := hspace.size.symm ▸ hr
  have hmade := u.threadState?_threadState hlt
  have hfound := hstate.keeps.find hfound
  have hboth := hspace.trans hstate
  generalize (u.threadState here).1 = state at *
  generalize (u.threadState here).2 = x at *
  have hlt : state.current.id < x.cells.size := hstate.registered.var_lt (.thread (mem_of_lookup hmade) rfl)
  refine ⟨hboth.keeps.trans (x.keeps_setRoot _ _), hstate.registered.setRoot _ _,
    hboth.currents, hboth.size, ⟨n, ?_, hfound⟩, fun there hne hthere => ?_⟩
  · have hstate' : (x.setRoot state.current (.ns n)).threadState? here = some state := hmade
    rw [place_of_some hstate']
    unfold ThreadState.currentIn
    rw [root_setRoot_of_lt hlt]
  · rw [← hboth.places there hthere]
    have hx := (h.of_undisturbed hspace).of_undisturbed hstate
    refine hx.place_eq (x.keeps_setRoot _ _) (hboth.size.symm ▸ hthere) rfl fun state' hstate' => ?_
    unfold root
    rw [cell_setRoot (hx.toRegistered.current_ne hmade hstate' hne)]

/-! ## New registries -/

/-- There is one more registry, in which threads begin in the namespaces of these names; in the others they
are where they were. -/
structure Joined (w u : World) (places : ThreadId → String) : Prop where
  keeps : w.Keeps u
  registered : u.Registered
  currents : u.NamesCurrents
  size : u.registries.size = w.registries.size + 1
  core : ∃ n, u.findNamespace? w.registries.size coreName = some n
  there : ∀ t, ∃ n, (u.currentNamespace ⟨w.registries.size, t⟩).1 = .ok n ∧
    u.findNamespace? w.registries.size (places t) = some n
  others : ∀ there, there.registry < w.registries.size →
    (u.currentNamespace there).1 = (w.currentNamespace there).1

theorem Settled.of_joined {places : ThreadId → String} (h : w.Settled) (hu : w.Joined u places) :
    u.Settled where
  toRegistered := hu.registered
  core {r} hr := by
    rw [hu.size] at hr
    obtain hr | rfl := Nat.lt_succ_iff_lt_or_eq.mp hr
    · obtain ⟨n, hn⟩ := h.core hr
      exact ⟨n, hu.keeps.find hn⟩
    · exact hu.core
  currents := hu.currents

namespace Begun

variable {n : Namespace} {v : Var}

/-- Once it is made, its threads begin in the core namespace. -/
theorem joined (h : w.Begun u w.registries.size n v) (hw : w.Settled) (hk : w.Keeps u)
    (hs : u.registries.size = w.registries.size + 1) {t : ThreadId} {switch : Var}
    (hthreads : (u.registry w.registries.size).threads = [(t, ⟨v, switch⟩)]) :
    w.Joined u fun _ => coreName := by
  refine ⟨hk, h.registered, fun r t' state hmem => ?_, hs, ⟨n, h.core⟩, fun t' => ⟨n, ?_, h.core⟩,
    fun there hr => ?_⟩
  · by_cases hr : r = w.registries.size
    · rw [hr, hthreads, List.mem_singleton] at hmem
      obtain rfl := congrArg Prod.snd hmem
      exact (h.registered.var (hasNamespace_of_find h.core) (mem_of_lookup h.current)).name
    · exact hw.currents r t' state (h.registry r hr ▸ hmem)
  · have hlookup : u.threadState? ⟨w.registries.size, t'⟩ = if t' = t then some ⟨v, switch⟩ else none := by
      unfold threadState?
      rw [hthreads, List.lookup_cons, List.lookup_nil]
      split <;> simp_all
    split at hlookup
    · rw [place_of_some hlookup]
      unfold ThreadState.currentIn
      rw [h.root]
    · exact place_of_none hlookup h.core
  · have hq := Nat.ne_of_lt hr
    refine hw.place_eq hk hr ?_ fun state hstate => h.others _ hq _ _ (mem_of_lookup hstate)
    unfold threadState?
    rw [h.registry _ hq]

end Begun

@[simp] theorem size_registries_setRoot (w : World) (v : Var) (y : Value) :
    (w.setRoot v y).registries.size = w.registries.size := rfl

@[simp] theorem size_registries_threadStateFrom (w : World) (here : Site) (first : ThreadState) :
    (w.threadStateFrom here first).2.registries.size = w.registries.size := by
  unfold threadStateFrom
  split
  · rfl
  · exact size_registries_modifyRegistry ..

@[simp] theorem size_registries_defineNatives (w : World) (r : RegistryId) (fs : List Native) :
    (fs.foldl (·.defineNative r ·) w).registries.size = w.registries.size := by
  induction fs generalizing w with
  | nil => rfl
  | cons f fs ih =>
    rw [List.foldl_cons, ih]
    simp [defineNative, internCore]

theorem size_registries_newRegistry (w : World) (thread : ThreadId) (limit : Nat) :
    (w.newRegistry thread limit).2.registries.size = w.registries.size + 1 := by
  simp [newRegistry, internCore]

/-- In a new registry every thread begins in the core namespace. -/
theorem Settled.newRegistry (h : w.Settled) (thread : ThreadId) (limit : Nat) :
    w.Joined (w.newRegistry thread limit).2 fun _ => coreName := by
  obtain ⟨n, v, switch, hbegun, hthreads⟩ := h.toRegistered.begun_newRegistry thread limit
  exact hbegun.joined h (w.keeps_newRegistry thread limit) (w.size_registries_newRegistry thread limit) hthreads

/-- So it does if the registry gets the standard library. -/
theorem Settled.newRegistry_library (h : w.Settled) (thread : ThreadId) (limit : Nat) :
    w.Joined ((w.newRegistry thread limit).2.addStandardLibrary w.registries.size) fun _ => coreName := by
  obtain ⟨n, v, switch, hbegun, hthreads⟩ := h.toRegistered.begun_newRegistry thread limit
  have hnatives : ∀ f ∈ Native.standardLibrary, coreSymbol f.name ≠ currentSymbol := by decide
  obtain ⟨hdone, hsame⟩ := hbegun.defineNatives hnatives
  have hsize := size_registries_defineNatives (w.newRegistry thread limit).2 w.registries.size
    Native.standardLibrary
  exact hdone.joined h ((w.keeps_newRegistry thread limit).trans (keeps_defineNatives _ _ _))
    (hsize.trans (w.size_registries_newRegistry thread limit)) (hsame.trans hthreads)

/-! ## Copies -/

theorem lookup_eq_none_of_keys {α β γ : Type} [BEq α] [LawfulBEq α] {key : α} {as : List (α × β)}
    {bs : List (α × γ)} (hkeys : bs.map Prod.fst = as.map Prod.fst) (h : as.lookup key = none) :
    bs.lookup key = none := by
  rw [List.lookup_eq_none_iff] at h ⊢
  intro e he
  obtain ⟨e', he', heq⟩ := List.mem_map.mp (hkeys ▸ List.mem_map_of_mem he : e.1 ∈ as.map Prod.fst)
  rw [← heq]
  exact h e' he'

theorem tables_copyThreadState (w : World) (copies : List (String × Namespace)) (state : ThreadState) :
    (w.copyThreadState copies state).2.tables = w.tables := by
  unfold copyThreadState
  dsimp only
  split <;> split <;> rfl

/-- A thread gets a var of the same name in the place of its own, or one that a copy has entered under that
name. -/
theorem current_copyThreads (w : World) (copies : List (String × Namespace))
    (threads : List (ThreadId × ThreadState)) :
    ∀ e' ∈ (w.copyThreads copies threads).1, ∃ e ∈ threads, e'.2.current.name = e.2.current.name ∨
      ∃ name n, copies.lookup name = some n ∧ w.findVarIn? n e.2.current.name = some e'.2.current := by
  induction threads generalizing w with
  | nil =>
    intro e' he'
    cases he'
  | cons e threads ih =>
    obtain ⟨t, state⟩ := e
    intro e' he'
    unfold copyThreads at he'
    dsimp only at he'
    obtain rfl | he' := List.mem_cons.mp he'
    · refine ⟨_, List.mem_cons_self, ?_⟩
      unfold copyThreadState
      dsimp only
      cases hcopy : w.copyOfVar? copies state.current with
      | some v =>
        right
        unfold copyOfVar? at hcopy
        dsimp only at hcopy
        split at hcopy
        · obtain ⟨n, hn, hv⟩ := Option.bind_eq_some_iff.mp hcopy
          exact ⟨_, n, hn, hv⟩
        · cases hcopy
      | none => exact .inl rfl
    · obtain ⟨e, he, hname⟩ := ih (w.copyThreadState copies state).2 e' he'
      refine ⟨e, List.mem_cons_of_mem _ he, hname.imp_right ?_⟩
      rintro ⟨name, n, hn, hv⟩
      refine ⟨name, n, hn, ?_⟩
      unfold findVarIn? table at hv ⊢
      rwa [tables_copyThreadState] at hv

theorem Settled.currents_copyRegistry (h : w.Settled) (r : RegistryId) :
    (w.copyRegistry r).2.NamesCurrents := by
  have hregistered := h.toRegistered.copyRegistry r
  have hcopied := h.copied r
  have hcopying := (copying_copyThreads hcopied.extends_world (fun e he => hcopied.newNamespace he)
    (w.registry r).threads).1
  intro q t state hmem
  by_cases hq : q = w.registries.size
  · unfold World.copyRegistry at hmem hregistered
    dsimp only at hmem hregistered
    generalize w.copyNamespaces (w.registry r).namespaces = namespaces at *
    have hsize := congrArg Array.size hcopying.extends_world.registries
    have htables := hcopying.tables
    obtain ⟨copies, u⟩ := namespaces
    dsimp only at *
    have hcurrent := u.current_copyThreads copies (w.registry r).threads
    generalize u.copyThreads copies (w.registry r).threads = last at *
    rw [registry_push, hsize, if_pos hq] at hmem
    obtain ⟨e, he, hname⟩ := hcurrent _ hmem
    have hsource : e.2.current.name = currentSymbol := h.currents r _ _ he
    obtain hname | ⟨name, n, hn, hv⟩ := hname
    · exact hname.trans hsource
    -- The var is entered in the copy, where everything stands under its own name.
    · have hmem' := mem_of_lookup hv
      unfold table at hmem'
      rw [← htables] at hmem'
      refine (hregistered.var (r := q) ⟨name, ?_⟩ hmem').name.trans hsource
      rw [registry_push, hsize, if_pos hq]
      exact mem_of_lookup hn
  · exact h.currents q t state ((h.image r).registry hq ▸ hmem)

/-- In an image a thread that has a state is in the namespace that is named like the one it is in. -/
theorem RegistryImage.place_of_some {c : RegistryId} {t : ThreadId} {state : ThreadState} {n m : Namespace}
    (himage : w.RegistryImage u r c) (hstate : w.threadState? ⟨r, t⟩ = some state)
    (hn : state.currentIn w = .ok n) (hm : u.findNamespace? c n.name = some m) :
    (u.currentNamespace ⟨c, t⟩).1 = .ok m := by
  obtain ⟨state', hstate', t', hthread⟩ :=
    forall₂_lookup (R := fun s s' => ∃ t', w.ThreadImage u r c t' s s')
      (himage.threads.imp fun e _ he => ⟨he.1, e.1, he.2⟩) hstate
  -- The copy has a namespace of that name, so the thread does not fall back on the core namespace.
  obtain ⟨m', hm', hroot⟩ := hthread.root
  unfold imageOfCurrent at hm'
  rw [hn] at hm'
  change (u.findNamespace? c n.name).or _ = _ at hm'
  rw [hm, Option.some_or] at hm'
  obtain rfl := Option.some.inj hm'
  have hstate' : u.threadState? ⟨c, t⟩ = some state' := hstate'
  rw [World.place_of_some hstate']
  unfold ThreadState.currentIn
  rw [hroot]

/-- In a copy every thread begins in the namespace that is named like the one it is in. -/
theorem Settled.copyRegistry (h : w.Settled) (hr : r < w.registries.size) {places : ThreadId → String}
    (hplaces : ∀ t, ∃ n, (w.currentNamespace ⟨r, t⟩).1 = .ok n ∧ w.findNamespace? r (places t) = some n) :
    w.Joined (w.copyRegistry r).2 places := by
  obtain ⟨u, x, copies, states, hsteps⟩ := h.copySteps r
  have himage := h.image r
  have hk := w.keeps_copyRegistry r
  have hregistered := h.toRegistered.copyRegistry r
  have hcurrents := h.currents_copyRegistry r
  have hsize : (w.copyRegistry r).2.registries.size = w.registries.size + 1 := by
    rw [hsteps.result, Array.size_push, hsteps.copying.extends_world.registries]
  generalize (w.copyRegistry r).2 = y at *
  obtain ⟨core, hcore⟩ := h.core hr
  obtain ⟨core', hcore', -⟩ := forall₂_lookup himage.namespaces hcore
  refine ⟨hk, hregistered, hcurrents, hsize, ⟨core', hcore'⟩, fun t => ?_, fun there hthere => ?_⟩
  · obtain ⟨n, hn, hfound⟩ := hplaces t
    obtain ⟨m, hm, -⟩ := forall₂_lookup himage.namespaces hfound
    have hname : n.name = places t := (h.named r).namespace_name (mem_of_lookup hfound)
    refine ⟨m, ?_, hm⟩
    cases hstate : w.threadState? ⟨r, t⟩ with
    | some state =>
      rw [place_of_some hstate] at hn
      exact himage.place_of_some hstate hn (hname ▸ hm)
    | none =>
      -- The thread has not used the registry yet, so it is in the core namespace, there as here.
      rw [place_of_none hstate hcore] at hn
      obtain rfl := Except.ok.inj hn
      have hnone : y.threadState? ⟨w.registries.size, t⟩ = none :=
        lookup_eq_none_of_keys (forall₂_keys himage.threads) hstate
      have hplace : places t = coreName := hname.symm.trans ((h.named r).namespace_name (mem_of_lookup hcore))
      exact place_of_none hnone (hplace ▸ hm)
  · refine h.place_eq hk hthere ?_ fun state hstate => ?_
    · unfold threadState?
      rw [himage.registry (Nat.ne_of_lt hthere)]
    · exact root_congr (himage.cell (h.var_lt (.thread (mem_of_lookup hstate) rfl)))

end SmallLisp.World
