import SmallLisp.Proofs.World.Growth

/-!
# What belongs to a registry

A registry owns the vars in the tables of its namespaces, and the vars that hold the current namespaces
of its threads. Registries are `Apart` when no two of them share a namespace or a var. This is kept
because all that is made for a registry is new (`World.Adds`): a namespace or a var that a registry owns
after a change and not before it has a number that was not given out before.
-/

namespace SmallLisp.World

/-- The namespace stands in the table of the registry. -/
def HasNamespace (w : World) (r : RegistryId) (n : Namespace) : Prop :=
  ∃ name, (name, n) ∈ (w.registry r).namespaces

/-- The var belongs to the registry. -/
inductive Owns (w : World) (r : RegistryId) (v : Var) : Prop
  /-- It stands in the table of one of the namespaces. -/
  | table {n : Namespace} {s : Symbol} (hn : w.HasNamespace r n) (hv : (s, v) ∈ w.table n)
  /-- It holds the current namespace of one of the threads. -/
  | thread {t : ThreadId} {state : ThreadState} (ht : (t, state) ∈ (w.registry r).threads)
    (hv : state.current = v)

/-- No two registries share a namespace or a var, and the numbers of both have been given out. -/
structure Apart (w : World) : Prop where
  namespace_lt : ∀ {r n}, w.HasNamespace r n → n.id < w.tables.size
  namespace_eq : ∀ {r q n m}, w.HasNamespace r n → w.HasNamespace q m → n.id = m.id → r = q
  var_lt : ∀ {r v}, w.Owns r v → v.id < w.cells.size
  var_eq : ∀ {r q v u}, w.Owns r v → w.Owns q u → v.id = u.id → r = q

/-- What is there in the second world and not in the first one is new and belongs to the registry. -/
structure Adds (r : RegistryId) (w u : World) : Prop where
  cells_le : w.cells.size ≤ u.cells.size
  tables_le : w.tables.size ≤ u.tables.size
  namespaces : ∀ {q n}, u.HasNamespace q n →
    w.HasNamespace q n ∨ q = r ∧ w.tables.size ≤ n.id ∧ n.id < u.tables.size
  owned : ∀ {q v}, u.Owns q v →
    w.Owns q v ∨ q = r ∧ w.cells.size ≤ v.id ∧ v.id < u.cells.size

variable {w u x : World} {r q : RegistryId}

namespace Adds

theorem refl (r : RegistryId) (w : World) : w.Adds r w :=
  ⟨Nat.le_refl _, Nat.le_refl _, .inl, .inl⟩

theorem trans (h : w.Adds r u) (h' : u.Adds r x) : w.Adds r x := by
  refine ⟨Nat.le_trans h.cells_le h'.cells_le, Nat.le_trans h.tables_le h'.tables_le,
    fun hn => ?_, fun hv => ?_⟩
  · obtain hn | ⟨rfl, hle, hlt⟩ := h'.namespaces hn
    · obtain hn | ⟨rfl, hle, hlt⟩ := h.namespaces hn
      · exact .inl hn
      · exact .inr ⟨rfl, hle, Nat.lt_of_lt_of_le hlt h'.tables_le⟩
    · exact .inr ⟨rfl, Nat.le_trans h.tables_le hle, hlt⟩
  · obtain hv | ⟨rfl, hle, hlt⟩ := h'.owned hv
    · obtain hv | ⟨rfl, hle, hlt⟩ := h.owned hv
      · exact .inl hv
      · exact .inr ⟨rfl, hle, Nat.lt_of_lt_of_le hlt h'.cells_le⟩
    · exact .inr ⟨rfl, Nat.le_trans h.cells_le hle, hlt⟩

/-- Vars may be bound, and numbers given out, without anything being added. -/
theorem of_same (hc : u.cells.size = w.cells.size) (ht : u.tables = w.tables)
    (hn : ∀ q, (u.registry q).namespaces = (w.registry q).namespaces)
    (hth : ∀ q, (u.registry q).threads = (w.registry q).threads) : w.Adds r u := by
  have hhas : ∀ {q n}, u.HasNamespace q n → w.HasNamespace q n := by
    rintro q n ⟨name, hmem⟩
    exact ⟨name, hn q ▸ hmem⟩
  refine ⟨Nat.le_of_eq hc.symm, Nat.le_of_eq (congrArg Array.size ht.symm), fun h => .inl (hhas h),
    ?_⟩
  rintro q v (⟨hn, hv⟩ | ⟨hmem, hv⟩)
  · unfold World.table at hv
    rw [ht] at hv
    exact .inl (.table (hhas hn) hv)
  · exact .inl (.thread (hth q ▸ hmem) hv)

/-- Registries stay apart when one of them gets something new. -/
theorem apart (h : w.Adds r u) (hw : w.Apart) : u.Apart := by
  refine ⟨fun hn => ?_, fun hn hm heq => ?_, fun hv => ?_, fun hv hu heq => ?_⟩
  · obtain hn | ⟨-, -, hlt⟩ := h.namespaces hn
    · exact Nat.lt_of_lt_of_le (hw.namespace_lt hn) h.tables_le
    · exact hlt
  · obtain hn | ⟨rfl, hle, -⟩ := h.namespaces hn <;> obtain hm | ⟨rfl, hle', -⟩ := h.namespaces hm
    · exact hw.namespace_eq hn hm heq
    · have := hw.namespace_lt hn
      omega
    · have := hw.namespace_lt hm
      omega
    · rfl
  · obtain hv | ⟨-, -, hlt⟩ := h.owned hv
    · exact Nat.lt_of_lt_of_le (hw.var_lt hv) h.cells_le
    · exact hlt
  · obtain hv | ⟨rfl, hle, -⟩ := h.owned hv <;> obtain hu | ⟨rfl, hle', -⟩ := h.owned hu
    · exact hw.var_eq hv hu heq
    · have := hw.var_lt hv
      omega
    · have := hw.var_lt hu
      omega
    · rfl

end Adds

/-! ## Tables -/

theorem table_push (w : World) (vars : VarTable) (n : Namespace) :
    ({ w with tables := w.tables.push vars } : World).table n =
      if n.id = w.tables.size then vars else w.table n := by
  unfold table
  rw [Array.getElem?_push]
  split <;> rfl

theorem table_of_le {n : Namespace} (h : w.tables.size ≤ n.id) : w.table n = [] := by
  unfold table
  rw [Array.getElem?_eq_none h]
  rfl

/-- A fresh namespace has no vars, so the tables are as before. -/
theorem table_push_nil (w : World) (n : Namespace) :
    ({ w with tables := w.tables.push [] } : World).table n = w.table n := by
  rw [table_push]
  split
  · rename_i h
    rw [table_of_le (Nat.le_of_eq h.symm)]
  · rfl

theorem table_modifyRegistry (f : Registry → Registry) (n : Namespace) :
    (w.modifyRegistry r f).table n = w.table n := rfl

theorem table_enter (w : World) (n m : Namespace) (entry : Symbol × Var) (cells : Array Cell) :
    ({ w with cells, tables := w.tables.modify n.id (entry :: ·) } : World).table m =
      if n.id = m.id ∧ m.id < w.tables.size then entry :: w.table m else w.table m := by
  unfold table
  dsimp only
  rw [Array.getElem?_modify]
  by_cases hnm : n.id = m.id
  · by_cases hm : m.id < w.tables.size
    · simp [hnm, hm]
    · simp [hnm, hm]
  · simp [hnm]

/-- The contents of a var alone decide its root. -/
theorem root_congr {v v' : Var} (h : u.cell v = w.cell v') : u.root v = w.root v' := by
  unfold root
  rw [h]

theorem cell_push {v : Var} (h : v.id < w.cells.size) (c : Cell) (tables : Array VarTable) :
    ({ w with cells := w.cells.push c, tables } : World).cell v = w.cell v := by
  unfold cell
  dsimp only
  rw [Array.getElem?_push_lt h, Array.getElem?_eq_getElem h]

/-! ## Keywords and namespaces -/

theorem adds_internKeyword (w : World) (r : RegistryId) (s : Symbol) :
    w.Adds r (w.internKeyword r s).2 := by
  unfold internKeyword
  split
  · exact .refl r w
  · refine .of_same rfl rfl (fun q => ?_) fun q => ?_
    all_goals
      dsimp only
      rw [registry_modifyRegistry]
      split <;> rfl

/-- Only the namespace that is new has entered the table of the registry. -/
theorem hasNamespace_of_internNamespace {name : String} (hnew : w.findNamespace? r name = none)
    {n : Namespace} (h : (w.internNamespace r name).2.HasNamespace q n) :
    w.HasNamespace q n ∨ q = r ∧ n = ⟨w.tables.size, name⟩ := by
  unfold internNamespace at h
  rw [hnew] at h
  obtain ⟨name', hmem⟩ := h
  dsimp only at hmem
  rw [registry_modifyRegistry] at hmem
  split at hmem
  · rename_i hq
    obtain heq | hmem := List.mem_cons.mp hmem
    · exact .inr ⟨hq.1, (Prod.mk.inj heq).2⟩
    · exact .inl ⟨name', hmem⟩
  · exact .inl ⟨name', hmem⟩

/-- A new namespace has no vars, so the tables are as before. -/
theorem table_internNamespace (w : World) (r : RegistryId) (name : String) (n : Namespace) :
    (w.internNamespace r name).2.table n = w.table n := by
  unfold internNamespace
  split
  · rfl
  · rw [table_modifyRegistry, table_push_nil]

theorem adds_internNamespace (w : World) (r : RegistryId) (name : String) :
    w.Adds r (w.internNamespace r name).2 := by
  cases hnew : w.findNamespace? r name with
  | some n =>
    unfold internNamespace
    rw [hnew]
    exact .refl r w
  | none =>
    have hmade : (w.internNamespace r name).2 = ({ w with tables := w.tables.push [] } : World).modifyRegistry r
        (·.addNamespace ⟨w.tables.size, name⟩) := by
      unfold internNamespace
      rw [hnew]
    have hsize : (w.internNamespace r name).2.tables.size = w.tables.size + 1 := by
      rw [hmade]
      exact Array.size_push _
    refine ⟨?_, hsize ▸ Nat.le_succ _, fun hn => ?_, ?_⟩
    · rw [hmade]
      exact Nat.le_refl _
    · obtain hn | ⟨rfl, rfl⟩ := hasNamespace_of_internNamespace hnew hn
      · exact .inl hn
      · exact .inr ⟨rfl, Nat.le_refl _, hsize ▸ Nat.lt_succ_self _⟩
    · rintro q v (⟨hn, hv⟩ | ⟨ht, hv⟩)
      · rw [table_internNamespace] at hv
        obtain hn | ⟨rfl, rfl⟩ := hasNamespace_of_internNamespace hnew hn
        · exact .inl (.table hn hv)
        · rw [table_of_le (Nat.le_refl _)] at hv
          cases hv
      · rw [threads_internNamespace] at ht
        exact .inl (.thread ht hv)

/-- No other registry has a namespace of this number. -/
def Only (w : World) (r : RegistryId) (n : Namespace) : Prop :=
  ∀ q m, w.HasNamespace q m → m.id = n.id → q = r

/-- What is interned for a registry is nobody else's. -/
theorem only_internNamespace (h : w.Apart) (r : RegistryId) (name : String) :
    (w.internNamespace r name).2.Only r (w.internNamespace r name).1 := by
  intro q m hm heq
  obtain hm | ⟨hq, -⟩ := (w.adds_internNamespace r name).namespaces hm
  · cases hf : w.findNamespace? r name with
    | some n =>
      unfold internNamespace at heq
      rw [hf] at heq
      have hn : w.HasNamespace r n := ⟨name, mem_of_lookup hf⟩
      exact h.namespace_eq hm hn heq
    | none =>
      unfold internNamespace at heq
      rw [hf] at heq
      have := h.namespace_lt hm
      dsimp only at heq
      omega
  · exact hq

/-! ## Vars -/

/-- A namespace that stands in the table of a registry is nobody else's. -/
theorem Apart.only (h : w.Apart) {n : Namespace} (hn : w.HasNamespace r n) : w.Only r n :=
  fun _ _ hm heq => h.namespace_eq hm hn heq

theorem hasNamespace_of_find {n : Namespace} {name : String} (h : w.findNamespace? r name = some n) :
    w.HasNamespace r n :=
  ⟨name, mem_of_lookup h⟩

theorem adds_internVarIn (w : World) (r : RegistryId) {n : Namespace} (h : w.Only r n) (s : Symbol) :
    w.Adds r (w.internVarIn n s).2 := by
  unfold internVarIn
  split
  · exact .refl r w
  · dsimp only
    refine ⟨by simp, by simp, fun hn => .inl hn, ?_⟩
    rintro q v (⟨hm, hv⟩ | ⟨ht, hv⟩)
    · rw [table_enter] at hv
      split at hv
      · rename_i m s' hnm
        obtain heq | hv := List.mem_cons.mp hv
        · obtain ⟨-, rfl⟩ := Prod.mk.inj heq
          exact .inr ⟨h q m hm hnm.1.symm, Nat.le_refl _, by simp⟩
        · exact .inl (.table hm hv)
      · exact .inl (.table hm hv)
    · exact .inl (.thread ht hv)

/-- A var that is interned in a namespace stands in its table, or is new. -/
theorem owns_internVarIn {n : Namespace} (hn : w.HasNamespace r n) (s : Symbol) :
    w.Owns r (w.internVarIn n s).1 ∨ w.cells.size ≤ (w.internVarIn n s).1.id ∧
      (w.internVarIn n s).1.id < (w.internVarIn n s).2.cells.size := by
  unfold internVarIn
  split
  · rename_i v hv
    exact .inl (.table hn (mem_of_lookup hv))
  · exact .inr ⟨Nat.le_refl _, by simp⟩

/-- A var that is interned for a registry stands in one of its tables, or is new. -/
theorem owns_internVar {s : Symbol} {v : Var} (h : (w.internVar r s).1 = .ok v) :
    w.Owns r v ∨ w.cells.size ≤ v.id := by
  obtain ⟨fault, heq⟩ | ⟨n, hs, hn⟩ := w.internVar_cases r s
  · rw [heq] at h
    cases h
  · rw [w.internVar_of_find r hs hn] at h
    obtain rfl := Except.ok.inj h
    exact (owns_internVarIn (hasNamespace_of_find hn) s).imp_right And.left

/-! ## Threads -/

theorem adds_newPrivateVar (w : World) (r : RegistryId) (owner : Namespace) (name : Symbol)
    (root : Option Value) : w.Adds r (w.newPrivateVar owner name root).2 := by
  refine ⟨by simp [newPrivateVar], Nat.le_refl _, .inl, ?_⟩
  rintro q v (⟨hn, hv⟩ | ⟨ht, hv⟩)
  · exact .inl (.table hn hv)
  · exact .inl (.thread ht hv)

/-- A namespace is still nobody else's when a var has been made. -/
theorem Only.newPrivateVar {n : Namespace} (h : w.Only r n) (owner : Namespace) (name : Symbol)
    (root : Option Value) : (w.newPrivateVar owner name root).2.Only r n :=
  h

/-- The state that a thread begins with is made of the core namespace, a new var and the var of the
switching function. -/
theorem defaultThreadState_eq (w : World) (r : RegistryId) :
    (w.defaultThreadState r).2 =
      (((w.internCore r).2.newPrivateVar (w.internCore r).1 currentSymbol
        (some (.ns (w.internCore r).1))).2.internVarIn (w.internCore r).1 switchSymbol).2 := rfl

theorem adds_defaultThreadState (h : w.Apart) (r : RegistryId) :
    w.Adds r (w.defaultThreadState r).2 := by
  have hcore : w.Adds r (w.internCore r).2 := adds_internNamespace w r coreName
  have honly : (w.internCore r).2.Only r (w.internCore r).1 := only_internNamespace h r coreName
  rw [defaultThreadState_eq]
  refine hcore.trans ?_
  generalize w.internCore r = core at *
  exact (adds_newPrivateVar core.2 r _ _ _).trans
    (adds_internVarIn _ r (honly.newPrivateVar _ _ _) _)

theorem cells_le_internVarIn (w : World) (n : Namespace) (s : Symbol) :
    w.cells.size ≤ (w.internVarIn n s).2.cells.size := by
  unfold internVarIn
  split <;> simp

/-- The var of a default state is new. -/
theorem current_defaultThreadState (w : World) (r : RegistryId) :
    w.cells.size ≤ (w.defaultThreadState r).1.current.id ∧
      (w.defaultThreadState r).1.current.id < (w.defaultThreadState r).2.cells.size := by
  have hcore : w.cells.size ≤ (w.internCore r).2.cells.size :=
    (adds_internNamespace w r coreName).cells_le
  have hid : (w.defaultThreadState r).1.current.id = (w.internCore r).2.cells.size := rfl
  rw [hid, defaultThreadState_eq]
  generalize w.internCore r = core at hcore ⊢
  refine ⟨hcore, Nat.lt_of_lt_of_le ?_ (cells_le_internVarIn _ _ _)⟩
  simp [newPrivateVar]

/-- A state of a thread adds its var to the registry, if that is new. -/
theorem adds_addThread (hu : u.Adds r w) {state : ThreadState}
    (h : u.Owns r state.current ∨ u.cells.size ≤ state.current.id ∧ state.current.id < w.cells.size)
    (t : ThreadId) : u.Adds r (w.modifyRegistry r (·.addThread t state)) := by
  have hnamespaces : ∀ q, ((w.modifyRegistry r (·.addThread t state)).registry q).namespaces =
      (w.registry q).namespaces := by
    intro q
    rw [registry_modifyRegistry]
    split <;> rfl
  have hhas : ∀ {q n}, (w.modifyRegistry r (·.addThread t state)).HasNamespace q n →
      w.HasNamespace q n := by
    rintro q n ⟨name, hmem⟩
    exact ⟨name, hnamespaces q ▸ hmem⟩
  refine ⟨hu.cells_le, hu.tables_le, fun hn => hu.namespaces (hhas hn), ?_⟩
  rintro q v (⟨hn, hv⟩ | ⟨ht, hv⟩)
  · exact hu.owned (.table (hhas hn) hv)
  · rw [registry_modifyRegistry] at ht
    split at ht
    · rename_i hq
      obtain rfl := hq.1
      obtain heq | ht := List.mem_cons.mp ht
      · obtain ⟨-, rfl⟩ := Prod.mk.inj heq
        rw [hv] at h
        obtain h | h := h
        · exact .inl h
        · exact .inr ⟨rfl, h⟩
      · exact hu.owned (.thread ht hv)
    · exact hu.owned (.thread ht hv)

theorem adds_threadState (h : w.Apart) (here : Site) :
    w.Adds here.registry (w.threadState here).2 := by
  unfold threadState
  split
  · exact .refl _ w
  · exact adds_addThread (adds_defaultThreadState h here.registry)
      (.inr (w.current_defaultThreadState here.registry)) here.thread

/-- The var of the current namespace belongs to the registry, or is new. -/
theorem owns_threadState (w : World) (here : Site) :
    w.Owns here.registry (w.threadState here).1.current ∨
      w.cells.size ≤ (w.threadState here).1.current.id := by
  unfold threadState
  split
  · rename_i state hstate
    exact .inl (.thread (mem_of_lookup hstate) rfl)
  · exact .inr (w.current_defaultThreadState here.registry).1

theorem adds_setRoot (w : World) (r : RegistryId) (v : Var) (x : Value) :
    w.Adds r (w.setRoot v x) :=
  .of_same (by simp [setRoot]) rfl (fun _ => rfl) fun _ => rfl

theorem adds_setMetadata (w : World) (r : RegistryId) (v : Var) (x : Value) :
    w.Adds r (w.setMetadata v x) :=
  .of_same (by simp [setMetadata]) rfl (fun _ => rfl) fun _ => rfl

/-- Binding another var leaves the contents of a var as they are. -/
theorem cell_setRoot {v v' : Var} (h : v.id ≠ v'.id) (x : Value) :
    (w.setRoot v x).cell v' = w.cell v' := by
  unfold cell setRoot
  dsimp only
  rw [Array.getElem?_modify, if_neg h]

end SmallLisp.World
