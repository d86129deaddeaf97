import SmallLisp.Proofs.Action.Invariant

/-!
# Registries only grow

A registry never loses or replaces what stands in its tables: a namespace, a keyword or the state of a
thread that is found under a key once is found there ever after, and the expansion limit stays the same
(`Registry.Grows`). Every program keeps this (`World.growing`).
-/

namespace SmallLisp

/-- What one registry holds, the other one holds as well, under the same keys. -/
structure Registry.Grows (a b : Registry) : Prop where
  namespaces : ∀ name n, a.namespaces.lookup name = some n → b.namespaces.lookup name = some n
  keywords : ∀ s k, a.keywords.lookup s = some k → b.keywords.lookup s = some k
  threads : ∀ t state, a.threads.lookup t = some state → b.threads.lookup t = some state
  expansionLimit : b.expansionLimit = a.expansionLimit

namespace Registry.Grows

variable {a b c : Registry}

theorem refl (a : Registry) : a.Grows a := ⟨fun _ _ h => h, fun _ _ h => h, fun _ _ h => h, rfl⟩

theorem trans (hab : a.Grows b) (hbc : b.Grows c) : a.Grows c :=
  ⟨fun name n h => hbc.namespaces name n (hab.namespaces name n h),
    fun s k h => hbc.keywords s k (hab.keywords s k h),
    fun t state h => hbc.threads t state (hab.threads t state h),
    hbc.expansionLimit.trans hab.expansionLimit⟩

end Registry.Grows

/-- What is found under a key stands in the table. -/
theorem mem_of_lookup {α β : Type} [BEq α] [LawfulBEq α] {key : α} {b : β} {entries : List (α × β)}
    (h : entries.lookup key = some b) : (key, b) ∈ entries := by
  obtain ⟨before, after, rfl, -⟩ := List.lookup_eq_some_iff.mp h
  simp

/-- An entry under a new key hides nothing. -/
theorem lookup_cons_of_new {α β : Type} [BEq α] [LawfulBEq α] {key x : α} {b y : β}
    {entries : List (α × β)} (hnew : entries.lookup key = none) (h : entries.lookup x = some y) :
    ((key, b) :: entries).lookup x = some y := by
  rw [List.lookup_cons]
  split
  · rename_i heq
    rw [beq_iff_eq.mp heq] at h
    rw [hnew] at h
    cases h
  · exact h

namespace Registry

variable {a : Registry}

theorem grows_addKeyword {k : Keyword} (hnew : a.keywords.lookup k.sym = none) :
    a.Grows (a.addKeyword k) :=
  ⟨fun _ _ h => h, fun _ _ => lookup_cons_of_new hnew, fun _ _ h => h, rfl⟩

theorem grows_addNamespace {n : Namespace} (hnew : a.namespaces.lookup n.name = none) :
    a.Grows (a.addNamespace n) :=
  ⟨fun _ _ => lookup_cons_of_new hnew, fun _ _ h => h, fun _ _ h => h, rfl⟩

theorem grows_addThread {t : ThreadId} {state : ThreadState} (hnew : a.threads.lookup t = none) :
    a.Grows (a.addThread t state) :=
  ⟨fun _ _ h => h, fun _ _ h => h, fun _ _ => lookup_cons_of_new hnew, rfl⟩

end Registry

namespace World

variable {w : World}

theorem registry_modifyRegistry (r q : RegistryId) (f : Registry → Registry) :
    (w.modifyRegistry r f).registry q =
      if q = r ∧ r < w.registries.size then f (w.registry q) else w.registry q := by
  unfold registry modifyRegistry
  dsimp only
  rw [Array.getElem?_modify]
  by_cases hq : r = q
  · subst hq
    by_cases hr : r < w.registries.size <;> simp [hr]
  · simp [hq, Ne.symm hq]

/-- A change that lets a registry grow lets every registry grow. -/
theorem grows_modifyRegistry {r : RegistryId} {f : Registry → Registry}
    (h : (w.registry r).Grows (f (w.registry r))) (q : RegistryId) :
    (w.registry q).Grows ((w.modifyRegistry r f).registry q) := by
  rw [registry_modifyRegistry]
  split
  · rename_i hq
    rw [hq.1]
    exact h
  · exact .refl _

variable (w) (r q : RegistryId)

theorem grows_internKeyword (s : Symbol) :
    (w.registry q).Grows ((w.internKeyword r s).2.registry q) := by
  unfold internKeyword
  split
  · exact .refl _
  · rename_i hnew
    exact grows_modifyRegistry (Registry.grows_addKeyword hnew) q

theorem grows_internNamespace (name : String) :
    (w.registry q).Grows ((w.internNamespace r name).2.registry q) := by
  unfold internNamespace
  split
  · exact .refl _
  · rename_i hnew
    have grown : (w.registry r).Grows ((w.registry r).addNamespace ⟨w.tables.size, name⟩) :=
      Registry.grows_addNamespace hnew
    exact grows_modifyRegistry (w := { w with tables := w.tables.push [] }) grown q

theorem registry_internVarIn (n : Namespace) (s : Symbol) :
    (w.internVarIn n s).2.registry q = w.registry q := by
  unfold internVarIn
  split <;> rfl

/-- A var is interned in the namespace of its namespace part. -/
theorem internVar_of_find {s : Symbol} {n : Namespace} (hs : s.isQualified)
    (hn : w.findNamespace? r s.ns = some n) :
    w.internVar r s = (.ok (w.internVarIn n s).1, (w.internVarIn n s).2) := by
  unfold internVar
  rw [if_pos hs, hn]

/-- Only if that namespace is missing, or there is no namespace part, it is not. -/
theorem internVar_cases (s : Symbol) : (∃ fault, w.internVar r s = (.error fault, w)) ∨
    ∃ n, s.isQualified ∧ w.findNamespace? r s.ns = some n := by
  unfold internVar
  split
  · rename_i hs
    split
    · rename_i n hn
      exact .inr ⟨n, hs, hn⟩
    · exact .inl ⟨_, rfl⟩
  · exact .inl ⟨_, rfl⟩

theorem registry_internVar (s : Symbol) : (w.internVar r s).2.registry q = w.registry q := by
  obtain ⟨fault, heq⟩ | ⟨n, hs, hn⟩ := w.internVar_cases r s
  · rw [heq]
  · rw [w.internVar_of_find r hs hn]
    exact w.registry_internVarIn q n s

theorem registry_newPrivateVar (owner : Namespace) (name : Symbol) (root : Option Value) :
    (w.newPrivateVar owner name root).2.registry q = w.registry q := rfl

theorem registry_defaultThreadState :
    (w.defaultThreadState r).2.registry q = (w.internCore r).2.registry q := by
  unfold defaultThreadState
  dsimp only
  rw [registry_internVarIn, registry_newPrivateVar]

theorem threads_internNamespace (name : String) :
    ((w.internNamespace r name).2.registry q).threads = (w.registry q).threads := by
  unfold internNamespace
  split
  · rfl
  · dsimp only
    rw [registry_modifyRegistry]
    split <;> rfl

theorem grows_threadState (here : Site) :
    (w.registry q).Grows ((w.threadState here).2.registry q) := by
  unfold threadState
  split
  · exact .refl _
  · rename_i hnew
    have core := w.grows_internNamespace here.registry q coreName
    rw [← internCore, ← registry_defaultThreadState] at core
    refine core.trans (grows_modifyRegistry (Registry.grows_addThread ?_) q)
    rw [registry_defaultThreadState, internCore, threads_internNamespace]
    exact hnew

/-! ## No registry is made by a program -/

@[simp] theorem size_registries_modifyRegistry (f : Registry → Registry) :
    (w.modifyRegistry r f).registries.size = w.registries.size := by
  simp [modifyRegistry]

@[simp] theorem size_registries_internNamespace (name : String) :
    (w.internNamespace r name).2.registries.size = w.registries.size := by
  unfold internNamespace
  split
  · rfl
  · exact size_registries_modifyRegistry _ _ _

@[simp] theorem size_registries_internVarIn (n : Namespace) (s : Symbol) :
    (w.internVarIn n s).2.registries.size = w.registries.size := by
  unfold internVarIn
  split <;> rfl

@[simp] theorem size_registries_defaultThreadState :
    (w.defaultThreadState r).2.registries.size = w.registries.size := by
  unfold defaultThreadState
  dsimp only
  rw [size_registries_internVarIn]
  exact w.size_registries_internNamespace r coreName

@[simp] theorem size_registries_threadState (here : Site) :
    (w.threadState here).2.registries.size = w.registries.size := by
  unfold threadState
  split
  · rfl
  · exact (size_registries_modifyRegistry _ _ _).trans (w.size_registries_defaultThreadState _)

@[simp] theorem size_registries_findVar (here : Site) (s : Symbol) :
    (w.findVar here s).2.registries.size = w.registries.size := by
  unfold findVar
  split
  · rfl
  · exact w.size_registries_threadState here

/-! ## What has been interned is found -/

/-- What is found is not made. -/
theorem internNamespace_of_find {name : String} {n : Namespace} (h : w.findNamespace? r name = some n) :
    w.internNamespace r name = (n, w) := by
  unfold internNamespace
  rw [h]

theorem internVarIn_of_find {n : Namespace} {s : Symbol} {v : Var} (h : w.findVarIn? n s = some v) :
    w.internVarIn n s = (v, w) := by
  unfold internVarIn
  rw [h]

theorem internKeyword_of_lookup {s : Symbol} {k : Keyword} (h : (w.registry r).keywords.lookup s = some k) :
    w.internKeyword r s = (k, w) := by
  unfold internKeyword
  rw [h]

/-- A keyword is in the table of the registry once it has been interned there. -/
theorem lookup_internKeyword (h : r < w.registries.size) (s : Symbol) :
    ((w.internKeyword r s).2.registry r).keywords.lookup s = some (w.internKeyword r s).1 := by
  unfold internKeyword
  split
  · assumption
  · dsimp only
    rw [registry_modifyRegistry, if_pos ⟨rfl, h⟩]
    exact List.lookup_cons_self

/-- The state that a thread has got is found once it has used the registry. -/
theorem threadState?_threadState {here : Site} (h : here.registry < w.registries.size) :
    (w.threadState here).2.threadState? here = some (w.threadState here).1 := by
  unfold threadState
  split
  · assumption
  · have hsize : here.registry < (w.defaultThreadState here.registry).2.registries.size := by
      rw [size_registries_defaultThreadState]
      exact h
    unfold threadState?
    dsimp only
    rw [registry_modifyRegistry, if_pos ⟨rfl, hsize⟩]
    simp [Registry.addThread]

/-- Programs let the registry that they run in grow. -/
theorem growing (here : Site) (a : Registry) :
    Kept here False fun w => a.Grows (w.registry here.registry) where
  covered _ _ _ := Closure.covered_free _
  newObject _ h := h
  uniqueName _ h _ := h
  print _ h _ := h
  internKeyword w h s := h.trans (w.grows_internKeyword _ _ s)
  internNamespace w h name := h.trans (w.grows_internNamespace _ _ name)
  internVar w h s := by rw [w.registry_internVar]; exact h
  threadState w h := h.trans (w.grows_threadState _ here)
  newFunction _ h _ _ := h
  setRoot _ h _ _ := h
  setMetadata _ h _ _ := h

end World

end SmallLisp
