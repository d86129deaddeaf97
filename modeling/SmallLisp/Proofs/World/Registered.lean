import SmallLisp.Proofs.World.Permanence

/-!
# Everything stands under its own name

A world is `Registered` if each table holds each name once, and under it what has this name: a registry
its namespaces, keywords and threads, and a namespace its vars, which are named after it and which it
owns. Moreover the var that holds the current namespace of a thread is owned by the core namespace of the
registry, and no two threads share one. What programs do keeps this, for interning enters a new thing
under its own name, and only where there is none.
-/

namespace SmallLisp

/-! ## Tables -/

/-- Where each key stands once, what stands under a key is found. -/
theorem lookup_of_mem {α β : Type} [BEq α] [LawfulBEq α] {key : α} {b : β} {entries : List (α × β)}
    (hkeys : (entries.map Prod.fst).Nodup) (h : (key, b) ∈ entries) : entries.lookup key = some b := by
  induction entries with
  | nil => cases h
  | cons e entries ih =>
    obtain ⟨k, c⟩ := e
    obtain ⟨hnew, hkeys⟩ := List.nodup_cons.mp hkeys
    obtain heq | hmem := List.mem_cons.mp h
    · cases heq
      exact List.lookup_cons_self
    · have hne : key ≠ k := by
        rintro rfl
        exact hnew (List.mem_map.mpr ⟨_, hmem, rfl⟩)
      rw [List.lookup_cons, beq_false_of_ne hne]
      exact ih hkeys hmem

/-- A key under which nothing is found can be entered. -/
theorem nodup_cons_of_new {α β : Type} [BEq α] [LawfulBEq α] {key : α} {entries : List (α × β)}
    (hkeys : (entries.map Prod.fst).Nodup) (hnew : entries.lookup key = none) (b : β) :
    (((key, b) :: entries).map Prod.fst).Nodup := by
  refine List.nodup_cons.mpr ⟨fun hmem => ?_, hkeys⟩
  obtain ⟨e, he, rfl⟩ := List.mem_map.mp hmem
  exact absurd (List.lookup_eq_none_iff.mp hnew e he) (by simp)

/-- The tables of a registry hold each name once, and under it what has this name. -/
structure Registry.Named (a : Registry) : Prop where
  namespace_name : ∀ {name n}, (name, n) ∈ a.namespaces → n.name = name
  namespace_keys : (a.namespaces.map Prod.fst).Nodup
  keyword_name : ∀ {s k}, (s, k) ∈ a.keywords → k.sym = s ∧ k.resolved = true
  keyword_keys : (a.keywords.map Prod.fst).Nodup
  thread_keys : (a.threads.map Prod.fst).Nodup

namespace Registry.Named

variable {a : Registry}

theorem empty (limit : Nat) : (⟨[], [], [], limit⟩ : Registry).Named :=
  ⟨nofun, .nil, nofun, .nil, .nil⟩

theorem addKeyword (h : a.Named) {k : Keyword} (hk : k.resolved = true)
    (hnew : a.keywords.lookup k.sym = none) : (a.addKeyword k).Named where
  namespace_name := h.namespace_name
  namespace_keys := h.namespace_keys
  keyword_name hmem := by
    obtain heq | hmem := List.mem_cons.mp hmem
    · cases heq
      exact ⟨rfl, hk⟩
    · exact h.keyword_name hmem
  keyword_keys := nodup_cons_of_new h.keyword_keys hnew k
  thread_keys := h.thread_keys

theorem addNamespace (h : a.Named) {n : Namespace} (hnew : a.namespaces.lookup n.name = none) :
    (a.addNamespace n).Named where
  namespace_name hmem := by
    obtain heq | hmem := List.mem_cons.mp hmem
    · cases heq
      rfl
    · exact h.namespace_name hmem
  namespace_keys := nodup_cons_of_new h.namespace_keys hnew n
  keyword_name := h.keyword_name
  keyword_keys := h.keyword_keys
  thread_keys := h.thread_keys

theorem addThread (h : a.Named) {t : ThreadId} (hnew : a.threads.lookup t = none) (state : ThreadState) :
    (a.addThread t state).Named where
  namespace_name := h.namespace_name
  namespace_keys := h.namespace_keys
  keyword_name := h.keyword_name
  keyword_keys := h.keyword_keys
  thread_keys := nodup_cons_of_new h.thread_keys hnew state

end Registry.Named

namespace World

/-- The var is named by the symbol, which is in the namespace, and the namespace owns it. -/
structure Entered (w : World) (n : Namespace) (s : Symbol) (v : Var) : Prop where
  name : v.name = s
  ns : s.ns = n.name
  owner : (w.cell v).owner = n

/-- No other namespace in the tables of the registries has the number of this one. -/
def Sole (w : World) (n : Namespace) : Prop := ∀ q m, w.HasNamespace q m → m.id = n.id → m = n

/-- A state of a thread is made of a var that the core namespace owns and of the var of the switching function
there. -/
structure CoreState (w : World) (r : RegistryId) (state : ThreadState) : Prop where
  found : w.findNamespace? r coreName = some (w.cell state.current).owner
  switch : w.findVarIn? (w.cell state.current).owner switchSymbol = some state.switch

/-- Each thing that has been made stands under its own name, and no name stands twice in a table. -/
structure Registered (w : World) : Prop extends Apart w where
  named : ∀ r, (w.registry r).Named
  same_id : ∀ {r q n m}, w.HasNamespace r n → w.HasNamespace q m → n.id = m.id → n = m
  var : ∀ {r n s v}, w.HasNamespace r n → (s, v) ∈ w.table n → w.Entered n s v
  var_keys : ∀ {r n}, w.HasNamespace r n → ((w.table n).map Prod.fst).Nodup
  same_var : ∀ {r n s s' v v'}, w.HasNamespace r n → (s, v) ∈ w.table n → (s', v') ∈ w.table n →
    v.id = v'.id → s = s'
  thread : ∀ {r t state}, (t, state) ∈ (w.registry r).threads → w.CoreState r state
  same_current : ∀ {r t t' state state'}, (t, state) ∈ (w.registry r).threads →
    (t', state') ∈ (w.registry r).threads → state.current.id = state'.current.id → t = t'

theorem lt_of_thread {w : World} {r : RegistryId} {t : ThreadId} {state : ThreadState}
    (h : (t, state) ∈ (w.registry r).threads) : r < w.registries.size := by
  refine Nat.lt_of_not_le fun hle => ?_
  unfold registry at h
  rw [Array.getElem?_eq_none hle] at h
  cases h

theorem Entered.keeps {w u : World} {n : Namespace} {s : Symbol} {v : Var} (h : w.Entered n s v)
    (hk : w.Keeps u) (hv : v.id < w.cells.size) : u.Entered n s v :=
  ⟨h.name, h.ns, (hk.owner hv).trans h.owner⟩

theorem CoreState.keeps {w u : World} {r : RegistryId} {state : ThreadState} (h : w.CoreState r state)
    (hk : w.Keeps u) (hr : r < w.registries.size) (hv : state.current.id < w.cells.size) :
    u.CoreState r state := by
  have howner := hk.owner hv
  constructor
  · rw [howner]
    exact (hk.registry hr).namespaces _ _ h.found
  · rw [howner]
    exact hk.var h.switch

/-- A registry that has a namespace has been made. -/
theorem lt_of_find {w : World} {r : RegistryId} {name : String} {n : Namespace}
    (h : w.findNamespace? r name = some n) : r < w.registries.size := by
  refine Nat.lt_of_not_le fun hle => ?_
  unfold findNamespace? registry at h
  rw [Array.getElem?_eq_none hle] at h
  cases h

/-- A namespace that is found is found ever after. -/
theorem Keeps.find {w u : World} (hk : w.Keeps u) {r : RegistryId} {name : String} {n : Namespace}
    (h : w.findNamespace? r name = some n) : u.findNamespace? r name = some n :=
  (hk.registry (lt_of_find h)).namespaces _ _ h

/-- A namespace that has been interned is found. -/
theorem find_internNamespace (w : World) {r : RegistryId} (h : r < w.registries.size) (name : String) :
    (w.internNamespace r name).2.findNamespace? r name = some (w.internNamespace r name).1 := by
  unfold internNamespace
  split
  · assumption
  · unfold findNamespace?
    dsimp only
    rw [registry_modifyRegistry, if_pos ⟨rfl, h⟩]
    exact List.lookup_cons_self

/-- A namespace that is interned for a registry has been made. -/
theorem lt_internNamespace {w : World} (h : w.Apart) (r : RegistryId) (name : String) :
    (w.internNamespace r name).1.id < (w.internNamespace r name).2.tables.size := by
  unfold internNamespace
  split
  · rename_i n hn
    exact h.namespace_lt (hasNamespace_of_find hn)
  · simp [modifyRegistry]

/-- A var that has been interned is found. -/
theorem find_internVarIn {w : World} {n : Namespace} (h : n.id < w.tables.size) (s : Symbol) :
    (w.internVarIn n s).2.findVarIn? n s = some (w.internVarIn n s).1 := by
  unfold internVarIn
  split
  · assumption
  · unfold findVarIn?
    rw [table_enter, if_pos ⟨rfl, h⟩]
    exact List.lookup_cons_self

namespace Registered

variable {w u : World} {r : RegistryId} {t : ThreadId} {state : ThreadState}

theorem hasNamespace_congr (hr : ∀ q, (u.registry q).namespaces = (w.registry q).namespaces)
    {q : RegistryId} {n : Namespace} : u.HasNamespace q n ↔ w.HasNamespace q n := by
  unfold HasNamespace
  rw [hr]

/-- What a thread has got is kept. -/
theorem thread_keeps (h : w.Registered) (hk : w.Keeps u) (hmem : (t, state) ∈ (w.registry r).threads) :
    u.CoreState r state :=
  (h.thread hmem).keeps hk (lt_of_thread hmem) (h.var_lt (.thread hmem rfl))

/-- What has been entered is kept. -/
theorem var_keeps (h : w.Registered) (hk : w.Keeps u) {n : Namespace} {s : Symbol} {v : Var}
    (hn : w.HasNamespace r n) (hv : (s, v) ∈ w.table n) : u.Entered n s v :=
  (h.var hn hv).keeps hk (h.var_lt (.table hn hv))

/-- The tables alone matter, and the owners of the vars that have been made before. -/
theorem of_same (h : w.Registered) (ha : u.Apart) (hk : w.Keeps u)
    (hr : ∀ q, u.registry q = w.registry q) (ht : ∀ n, u.table n = w.table n) : u.Registered := by
  have hhas : ∀ {q n}, u.HasNamespace q n ↔ w.HasNamespace q n :=
    hasNamespace_congr fun q => congrArg Registry.namespaces (hr q)
  exact {
    toApart := ha
    named := fun q => hr q ▸ h.named q
    same_id := fun hn hm => h.same_id (hhas.mp hn) (hhas.mp hm)
    var := fun hn hv => h.var_keeps hk (hhas.mp hn) (ht _ ▸ hv)
    var_keys := fun hn => (ht _).symm ▸ h.var_keys (hhas.mp hn)
    same_var := fun hn hv hv' => h.same_var (hhas.mp hn) (ht _ ▸ hv) (ht _ ▸ hv')
    thread := fun hmem => h.thread_keeps hk (hr _ ▸ hmem)
    same_current := fun hmem hmem' => h.same_current (hr _ ▸ hmem) (hr _ ▸ hmem') }

/-- Objects, functions and what is printed have no part in it. -/
theorem of_unchanged (h : w.Registered) (hc : u.cells = w.cells) (ht : u.tables = w.tables)
    (hr : u.registries = w.registries) : u.Registered := by
  have hregistry : ∀ q, u.registry q = w.registry q := fun q => by
    unfold World.registry
    rw [hr]
  have hadds : w.Adds 0 u := .of_same (congrArg Array.size hc) ht
    (fun q => congrArg Registry.namespaces (hregistry q)) fun q => congrArg Registry.threads (hregistry q)
  have hkeeps : w.Keeps u :=
    .of_grows (congrArg Array.size hr) (fun q => by rw [hregistry]; exact .refl _) ht hc
  exact h.of_same (hadds.apart h.toApart) hkeeps hregistry fun n => by
    unfold World.table
    rw [ht]

/-- A registry may get a keyword or the state of a thread. -/
theorem modifyRegistry (h : w.Registered) {f : Registry → Registry}
    (ha : (w.modifyRegistry r f).Apart) (hk : w.Keeps (w.modifyRegistry r f))
    (hf : ∀ a, (f a).namespaces = a.namespaces)
    (hnamed : (f (w.registry r)).Named)
    (hthreads : r < w.registries.size → ∀ t state, (t, state) ∈ (f (w.registry r)).threads →
      (t, state) ∈ (w.registry r).threads ∨ (w.modifyRegistry r f).CoreState r state)
    (hcurrents : ∀ t t' state state', (t, state) ∈ (f (w.registry r)).threads →
      (t', state') ∈ (f (w.registry r)).threads → state.current.id = state'.current.id → t = t') :
    (w.modifyRegistry r f).Registered := by
  have hnamespaces : ∀ q, ((w.modifyRegistry r f).registry q).namespaces = (w.registry q).namespaces := by
    intro q
    rw [registry_modifyRegistry]
    split
    · exact hf _
    · rfl
  have hhas : ∀ {q n}, (w.modifyRegistry r f).HasNamespace q n ↔ w.HasNamespace q n :=
    hasNamespace_congr hnamespaces
  refine
    { toApart := ha
      named := fun q => ?named
      same_id := fun hn hm => h.same_id (hhas.mp hn) (hhas.mp hm)
      var := fun hn hv => h.var_keeps hk (hhas.mp hn) hv
      var_keys := fun hn => h.var_keys (hhas.mp hn)
      same_var := fun hn => h.same_var (hhas.mp hn)
      thread := fun {q t state} hmem => ?thread
      same_current := fun {q t t' state state'} hmem hmem' => ?same_current }
  case named =>
    rw [registry_modifyRegistry]
    split
    · rename_i hq
      rw [hq.1]
      exact hnamed
    · exact h.named q
  case thread =>
    rw [registry_modifyRegistry] at hmem
    split at hmem
    · rename_i hq
      obtain rfl := hq.1
      exact (hthreads hq.2 t state hmem).elim (h.thread_keeps hk) id
    · exact h.thread_keeps hk hmem
  case same_current =>
    rw [registry_modifyRegistry] at hmem hmem'
    split at hmem
    · rename_i hq
      obtain rfl := hq.1
      rw [if_pos hq] at hmem'
      exact hcurrents t t' state state' hmem hmem'
    · rename_i hq
      rw [if_neg hq] at hmem'
      exact h.same_current hmem hmem'

theorem internKeyword (h : w.Registered) (r : RegistryId) (s : Symbol) :
    (w.internKeyword r s).2.Registered := by
  have ha := (adds_internKeyword w r s).apart h.toApart
  have hk := w.keeps_internKeyword r s
  unfold World.internKeyword at *
  split at ha
  · exact h
  · rename_i hnew
    rw [hnew] at hk
    exact h.modifyRegistry ha hk (fun _ => rfl) ((h.named r).addKeyword rfl hnew) (fun _ _ _ => .inl)
      fun _ _ _ _ => h.same_current

theorem sole (h : w.Registered) {n : Namespace} (hn : w.HasNamespace r n) : w.Sole n :=
  fun _ _ hm heq => h.same_id hm hn heq

theorem internNamespace (h : w.Registered) (r : RegistryId) (name : String) :
    (w.internNamespace r name).2.Registered := by
  have ha := (adds_internNamespace w r name).apart h.toApart
  have hk := w.keeps_internNamespace r name
  cases hnew : w.findNamespace? r name with
  | some n =>
    unfold World.internNamespace
    rw [hnew]
    exact h
  | none =>
    have hcases : ∀ {q n}, (w.internNamespace r name).2.HasNamespace q n →
        w.HasNamespace q n ∨ q = r ∧ n = ⟨w.tables.size, name⟩ := hasNamespace_of_internNamespace hnew
    have hempty : w.table ⟨w.tables.size, name⟩ = [] := table_of_le (Nat.le_refl _)
    refine
      { toApart := ha
        named := fun q => ?named
        same_id := fun hn hm heq => ?same_id
        var := fun hn hv => ?var
        var_keys := fun {q n} hn => ?var_keys
        same_var := fun hn hv hv' heq => ?same_var
        thread := fun {q t state} hmem => h.thread_keeps hk (w.threads_internNamespace r q name ▸ hmem)
        same_current := fun {q t t' state state'} hmem hmem' => ?same_current }
    case named =>
      unfold World.internNamespace
      rw [hnew]
      dsimp only
      rw [registry_modifyRegistry]
      split
      · rename_i hq
        obtain rfl := hq.1
        exact (h.named q).addNamespace hnew
      · exact h.named q
    case same_id =>
      obtain hn | ⟨rfl, rfl⟩ := hcases hn <;> obtain hm | ⟨-, rfl⟩ := hcases hm
      · exact h.same_id hn hm heq
      · exact absurd heq (Nat.ne_of_lt (h.namespace_lt hn))
      · exact absurd heq.symm (Nat.ne_of_lt (h.namespace_lt hm))
      · rfl
    case var =>
      rw [table_internNamespace] at hv
      obtain hn | ⟨-, rfl⟩ := hcases hn
      · exact h.var_keeps hk hn hv
      · rw [hempty] at hv
        cases hv
    case var_keys =>
      rw [table_internNamespace]
      obtain hn | ⟨-, rfl⟩ := hcases hn
      · exact h.var_keys hn
      · rw [hempty]
        exact .nil
    case same_var =>
      rw [table_internNamespace] at hv hv'
      obtain hn | ⟨-, rfl⟩ := hcases hn
      · exact h.same_var hn hv hv' heq
      · rw [hempty] at hv
        cases hv
    case same_current =>
      rw [threads_internNamespace] at hmem hmem'
      exact h.same_current hmem hmem'

/-- The vars of a table that a new var has entered. -/
theorem mem_table_of_internVarIn {n m : Namespace} {s s' : Symbol} {v : Var} (hnew : w.findVarIn? n s = none)
    (h : (s', v) ∈ (w.internVarIn n s).2.table m) :
    (s', v) ∈ w.table m ∨ n.id = m.id ∧ s' = s ∧ v = ⟨w.cells.size, s⟩ := by
  unfold World.internVarIn at h
  rw [hnew] at h
  dsimp only at h
  rw [table_enter] at h
  split at h
  · rename_i hm
    obtain heq | h := List.mem_cons.mp h
    · cases heq
      exact .inr ⟨hm.1, rfl, rfl⟩
    · exact .inl h
  · exact .inl h

theorem internVarIn (h : w.Registered) {n : Namespace} {s : Symbol} (ha : (w.internVarIn n s).2.Apart)
    (hn : w.Sole n) (hs : s.ns = n.name) : (w.internVarIn n s).2.Registered := by
  have hk := w.keeps_internVarIn n s
  cases hnew : w.findVarIn? n s with
  | some v =>
    unfold World.internVarIn
    rw [hnew]
    exact h
  | none =>
    have hcases : ∀ {m s' v}, (s', v) ∈ (w.internVarIn n s).2.table m →
        (s', v) ∈ w.table m ∨ n.id = m.id ∧ s' = s ∧ v = ⟨w.cells.size, s⟩ := mem_table_of_internVarIn hnew
    have hhas : ∀ {q m}, (w.internVarIn n s).2.HasNamespace q m ↔ w.HasNamespace q m :=
      hasNamespace_congr fun q => congrArg Registry.namespaces (w.registry_internVarIn q n s)
    have hlt : ∀ {q m s' v}, w.HasNamespace q m → (s', v) ∈ w.table m → v.id < w.cells.size :=
      fun hm hv => h.var_lt (.table hm hv)
    refine
      { toApart := ha
        named := fun q => (w.registry_internVarIn q n s).symm ▸ h.named q
        same_id := fun hn hm => h.same_id (hhas.mp hn) (hhas.mp hm)
        var := fun {q m s' v} hm hv => ?var
        var_keys := fun {q m} hm => ?var_keys
        same_var := fun {q m s₁ s₂ v₁ v₂} hm hv₁ hv₂ heq => ?same_var
        thread := fun {q t state} hmem => h.thread_keeps hk (w.registry_internVarIn q n s ▸ hmem)
        same_current := fun {q t t' state state'} hmem hmem' => ?same_current }
    case var =>
      obtain hv | ⟨heq, rfl, rfl⟩ := hcases hv
      · exact h.var_keeps hk (hhas.mp hm) hv
      · obtain rfl : m = n := hn q m (hhas.mp hm) heq.symm
        refine ⟨rfl, hs, ?_⟩
        unfold World.internVarIn
        rw [hnew]
        unfold cell
        dsimp only
        rw [Array.getElem?_push_size]
        rfl
    case var_keys =>
      have hkeys := h.var_keys (hhas.mp hm)
      unfold World.internVarIn
      rw [hnew]
      dsimp only
      rw [table_enter]
      split
      · rename_i hid
        obtain rfl : m = n := hn q m (hhas.mp hm) hid.1.symm
        exact nodup_cons_of_new hkeys hnew _
      · exact hkeys
    case same_var =>
      obtain hold₁ | ⟨-, rfl, rfl⟩ := hcases hv₁ <;> obtain hold₂ | ⟨-, rfl, rfl⟩ := hcases hv₂
      · exact h.same_var (hhas.mp hm) hold₁ hold₂ heq
      · exact absurd heq (Nat.ne_of_lt (hlt (hhas.mp hm) hold₁))
      · exact absurd heq.symm (Nat.ne_of_lt (hlt (hhas.mp hm) hold₂))
      · rfl
    case same_current =>
      rw [registry_internVarIn] at hmem hmem'
      exact h.same_current hmem hmem'

theorem internVar (h : w.Registered) (r : RegistryId) (s : Symbol) : (w.internVar r s).2.Registered := by
  obtain ⟨fault, heq⟩ | ⟨n, hs, hn⟩ := w.internVar_cases r s
  · rw [heq]
    exact h
  · have hhas := hasNamespace_of_find hn
    have ha := (adds_internVarIn w r (h.only hhas) s).apart h.toApart
    rw [w.internVar_of_find r hs hn]
    exact h.internVarIn ha (h.sole hhas) ((h.named r).namespace_name (mem_of_lookup hn)).symm

/-- The namespace of a name has this name. -/
theorem name_internNamespace (h : w.Registered) (r : RegistryId) (name : String) :
    (w.internNamespace r name).1.name = name := by
  unfold World.internNamespace
  split
  · rename_i n hn
    exact (h.named r).namespace_name (mem_of_lookup hn)
  · rfl

theorem sole_internNamespace (h : w.Registered) (r : RegistryId) (name : String) :
    (w.internNamespace r name).2.Sole (w.internNamespace r name).1 := by
  cases hnew : w.findNamespace? r name with
  | some n =>
    unfold World.internNamespace
    rw [hnew]
    exact h.sole (hasNamespace_of_find hnew)
  | none =>
    have hmade : (w.internNamespace r name).1 = ⟨w.tables.size, name⟩ := by
      unfold World.internNamespace
      rw [hnew]
    intro q m hm heq
    rw [hmade] at heq ⊢
    obtain hm | ⟨-, rfl⟩ := hasNamespace_of_internNamespace hnew hm
    · exact absurd heq (Nat.ne_of_lt (h.namespace_lt hm))
    · rfl

theorem newPrivateVar (h : w.Registered) (owner : Namespace) (name : Symbol) (root : Option Value) :
    (w.newPrivateVar owner name root).2.Registered :=
  h.of_same ((adds_newPrivateVar w 0 owner name root).apart h.toApart)
    (w.keeps_newPrivateVar owner name root) (fun _ => rfl) fun _ => rfl

theorem setRoot (h : w.Registered) (v : Var) (x : Value) : (w.setRoot v x).Registered :=
  h.of_same ((adds_setRoot w 0 v x).apart h.toApart) (w.keeps_setRoot v x) (fun _ => rfl) fun _ => rfl

theorem setMetadata (h : w.Registered) (v : Var) (x : Value) : (w.setMetadata v x).Registered :=
  h.of_same ((adds_setMetadata w 0 v x).apart h.toApart) (w.keeps_setMetadata v x) (fun _ => rfl)
    fun _ => rfl

/-- What is made for a thread that begins to use a registry is of the core namespace. -/
theorem defaultThreadState (h : w.Registered) (r : RegistryId) :
    (w.defaultThreadState r).2.Registered ∧ (r < w.registries.size →
      (w.defaultThreadState r).2.CoreState r (w.defaultThreadState r).1) := by
  have ha := (adds_defaultThreadState h.toApart r).apart h.toApart
  have hcore := h.internNamespace r coreName
  have hname := h.name_internNamespace r coreName
  have hsole := h.sole_internNamespace r coreName
  have hlt := lt_internNamespace h.toApart r coreName
  have hfound : r < w.registries.size →
      (w.internCore r).2.findNamespace? r coreName = some (w.internCore r).1 :=
    fun hr => find_internNamespace w hr coreName
  change (w.internCore r).2.Registered at hcore
  change (w.internCore r).1.name = coreName at hname
  change (w.internCore r).2.Sole (w.internCore r).1 at hsole
  change (w.internCore r).1.id < (w.internCore r).2.tables.size at hlt
  unfold World.defaultThreadState at *
  dsimp only at ha ⊢
  generalize w.internCore r = core at *
  obtain ⟨n, u⟩ := core
  dsimp only at *
  have hprivate := hcore.newPrivateVar n currentSymbol (some (.ns n))
  refine ⟨hprivate.internVarIn ha hsole hname.symm, fun hr => ?_⟩
  have howner : (((u.newPrivateVar n currentSymbol (some (.ns n))).2.internVarIn n switchSymbol).2.cell
      (u.newPrivateVar n currentSymbol (some (.ns n))).1).owner = n := by
    have hmade : (u.newPrivateVar n currentSymbol (some (.ns n))).1.id <
        (u.newPrivateVar n currentSymbol (some (.ns n))).2.cells.size := by
      simp [World.newPrivateVar]
    rw [(keeps_internVarIn _ n switchSymbol).owner hmade]
    unfold World.newPrivateVar cell
    dsimp only
    rw [Array.getElem?_push_size]
    rfl
  constructor
  · rw [howner, findNamespace?, registry_internVarIn]
    exact hfound hr
  · rw [howner]
    exact find_internVarIn (w := (u.newPrivateVar n currentSymbol (some (.ns n))).2) hlt switchSymbol

/-- A thread may get a state that is made of vars of the core namespace. -/
theorem addThread (h : w.Registered) (ha : (w.modifyRegistry r (·.addThread t state)).Apart)
    (hnew : (w.registry r).threads.lookup t = none)
    (hstate : r < w.registries.size → w.CoreState r state) (hlt : state.current.id < w.cells.size)
    (hother : ∀ t' state', (t', state') ∈ (w.registry r).threads → state'.current.id ≠ state.current.id) :
    (w.modifyRegistry r (·.addThread t state)).Registered := by
  have hk := w.keeps_addThread r hnew state
  refine h.modifyRegistry ha hk (fun _ => rfl) ((h.named r).addThread hnew state)
    (fun hr t' state' hmem => ?_) fun t₁ t₂ state₁ state₂ hmem₁ hmem₂ heq => ?_
  · obtain heq | hmem := List.mem_cons.mp hmem
    · cases heq
      exact .inr ((hstate hr).keeps hk hr hlt)
    · exact .inl hmem
  · obtain heq₁ | hmem₁ := List.mem_cons.mp hmem₁ <;> obtain heq₂ | hmem₂ := List.mem_cons.mp hmem₂
    · cases heq₁
      cases heq₂
      rfl
    · cases heq₁
      exact absurd heq.symm (hother _ _ hmem₂)
    · cases heq₂
      exact absurd heq (hother _ _ hmem₁)
    · exact h.same_current hmem₁ hmem₂ heq

theorem threadState (h : w.Registered) (here : Site) : (w.threadState here).2.Registered := by
  have ha := (adds_threadState h.toApart here).apart h.toApart
  obtain ⟨hmade, hstate⟩ := h.defaultThreadState here.registry
  obtain ⟨hle, hlt⟩ := w.current_defaultThreadState here.registry
  unfold World.threadState at *
  split at ha
  · exact h
  · rename_i hnew
    rw [← size_registries_defaultThreadState] at hstate
    have hthreads := w.threads_defaultThreadState here.registry here.registry
    refine hmade.addThread ha ?_ hstate hlt fun t' state' hmem => ?_
    · rw [hthreads]
      exact hnew
    · rw [hthreads] at hmem
      exact Nat.ne_of_lt (Nat.lt_of_lt_of_le (h.var_lt (.thread hmem rfl)) hle)

/-- Programs keep it. -/
theorem kept (here : Site) : Kept here False World.Registered where
  covered _ _ _ := Closure.covered_free _
  newObject _ h := h.of_unchanged rfl rfl rfl
  uniqueName _ h _ := h.of_unchanged rfl rfl rfl
  print _ h _ := h.of_unchanged rfl rfl rfl
  internKeyword _ h s := h.internKeyword _ s
  internNamespace _ h name := h.internNamespace _ name
  internVar _ h s := h.internVar _ s
  threadState _ h := h.threadState here
  newFunction _ h _ _ := h.of_unchanged rfl rfl rfl
  setRoot _ h v x := h.setRoot v x
  setMetadata _ h v x := h.setMetadata v x

/-! ## New registries -/

/-- An empty registry holds nothing. -/
theorem push (h : w.Registered) (limit : Nat) :
    ({ w with registries := w.registries.push ⟨[], [], [], limit⟩ } : World).Registered := by
  have ha := (w.adds_push limit).apart h.toApart
  have hk := w.keeps_push ⟨[], [], [], limit⟩
  have hregistry := fun q => w.registry_push ⟨[], [], [], limit⟩ q
  have htable : ∀ n, ({ w with registries := w.registries.push ⟨[], [], [], limit⟩ } : World).table n =
      w.table n := fun _ => rfl
  generalize ({ w with registries := w.registries.push ⟨[], [], [], limit⟩ } : World) = u at *
  have hhas : ∀ {q n}, u.HasNamespace q n ↔ w.HasNamespace q n := hasNamespace_congr fun q => by
    rw [hregistry]
    split
    · rename_i hq
      rw [hq, registry_size]
      rfl
    · rfl
  refine
    { toApart := ha
      named := fun q => ?named
      same_id := fun hn hm => h.same_id (hhas.mp hn) (hhas.mp hm)
      var := fun hn hv => h.var_keeps hk (hhas.mp hn) (htable _ ▸ hv)
      var_keys := fun hn => (htable _).symm ▸ h.var_keys (hhas.mp hn)
      same_var := fun hn hv hv' => h.same_var (hhas.mp hn) (htable _ ▸ hv) (htable _ ▸ hv')
      thread := fun {q t state} hmem => ?thread
      same_current := fun {q t t' state state'} hmem hmem' => ?same_current }
  case named =>
    rw [hregistry]
    split
    · exact .empty limit
    · exact h.named q
  case thread =>
    rw [hregistry] at hmem
    split at hmem
    · cases hmem
    · exact h.thread_keeps hk hmem
  case same_current =>
    rw [hregistry] at hmem hmem'
    split at hmem
    · cases hmem
    · rename_i hq
      rw [if_neg hq] at hmem'
      exact h.same_current hmem hmem'

theorem defineNative (h : w.Registered) (r : RegistryId) (f : Native) : (w.defineNative r f).Registered := by
  have hcore : (w.internCore r).2.Registered := h.internNamespace r coreName
  have hname : (w.internCore r).1.name = coreName := h.name_internNamespace r coreName
  have hsole : (w.internCore r).2.Sole (w.internCore r).1 := h.sole_internNamespace r coreName
  have honly : (w.internCore r).2.Only r (w.internCore r).1 := only_internNamespace h.toApart r coreName
  unfold World.defineNative
  dsimp only
  generalize w.internCore r = core at *
  have ha := (adds_internVarIn core.2 r honly (coreSymbol f.name)).apart hcore.toApart
  exact (hcore.internVarIn ha hsole hname.symm).setRoot _ _

theorem defineNatives (h : w.Registered) (fs : List Native) (r : RegistryId) :
    (fs.foldl (·.defineNative r ·) w).Registered := by
  induction fs generalizing w with
  | nil => exact h
  | cons f fs ih => exact ih (h.defineNative r f)

/-- A var of a namespace of the registry. -/
theorem internVarIn_of_has (h : w.Registered) {n : Namespace} (hn : w.HasNamespace r n) {s : Symbol}
    (hs : s.ns = n.name) : (w.internVarIn n s).2.Registered :=
  h.internVarIn ((adds_internVarIn w r (h.only hn) s).apart h.toApart) (h.sole hn) hs

/-- The first thread of a registry may begin with a var of it. -/
theorem threadStateFrom (h : w.Registered) (here : Site) {first : ThreadState}
    (hown : w.Owns here.registry first.current) (hfirst : w.CoreState here.registry first)
    (hnone : (w.registry here.registry).threads = []) : (w.threadStateFrom here first).2.Registered := by
  have ha := (adds_addThread (.refl here.registry w) (.inl hown) here.thread).apart h.toApart
  have hnew : (w.registry here.registry).threads.lookup here.thread = none := by
    rw [hnone]
    rfl
  have hadded := h.addThread ha hnew (fun _ => hfirst) (h.var_lt hown) fun t' state' hmem => by
    rw [hnone] at hmem
    cases hmem
  unfold World.threadStateFrom threadState?
  rw [hnew]
  exact hadded

end Registered

end World

end SmallLisp
