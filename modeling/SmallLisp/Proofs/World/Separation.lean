import SmallLisp.Proofs.World.Ownership
import SmallLisp.World.Copy
import SmallLisp.World.Create

/-!
# Copies are made apart

A copy of a registry shares nothing with the registries before it (`World.adds_copyRegistry`): copying makes a
namespace for each namespace and a var for each var, and it leaves all that was there before as it was.
-/

namespace SmallLisp.World

variable {w u x : World} {r q : RegistryId}

/-! ## New registries -/

theorem registry_push (w : World) (a : Registry) (q : RegistryId) :
    ({ w with registries := w.registries.push a } : World).registry q =
      if q = w.registries.size then a else w.registry q := by
  unfold registry
  dsimp only
  rw [Array.getElem?_push]
  split <;> rfl

theorem registry_size (w : World) : w.registry w.registries.size = default := by
  unfold registry
  rw [Array.getElem?_eq_none (Nat.le_refl _)]
  rfl

/-- An empty registry owns nothing. -/
theorem adds_push (w : World) (limit : Nat) :
    w.Adds w.registries.size { w with registries := w.registries.push ⟨[], [], [], limit⟩ } := by
  refine .of_same rfl rfl (fun q => ?_) fun q => ?_
  all_goals
    rw [registry_push]
    split
    · rename_i hq
      rw [hq, registry_size]
      rfl
    · rfl

/-! ## Copies -/

/-- What is there in the first world is there in the second one, unchanged, as are the registries. -/
structure Extends (w u : World) : Prop where
  cells_le : w.cells.size ≤ u.cells.size
  tables_le : w.tables.size ≤ u.tables.size
  registries : u.registries = w.registries
  table : ∀ {n : Namespace}, n.id < w.tables.size → u.table n = w.table n
  cell : ∀ {v : Var}, v.id < w.cells.size → u.cell v = w.cell v

namespace Extends

theorem refl (w : World) : w.Extends w :=
  ⟨Nat.le_refl _, Nat.le_refl _, rfl, fun _ => rfl, fun _ => rfl⟩

theorem trans (h : w.Extends u) (h' : u.Extends x) : w.Extends x :=
  ⟨Nat.le_trans h.cells_le h'.cells_le, Nat.le_trans h.tables_le h'.tables_le,
    h'.registries.trans h.registries,
    fun hn => (h'.table (Nat.lt_of_lt_of_le hn h.tables_le)).trans (h.table hn),
    fun hv => (h'.cell (Nat.lt_of_lt_of_le hv h.cells_le)).trans (h.cell hv)⟩

end Extends

/-- The var is in the second world and not in the first one. -/
def NewVar (w u : World) (v : Var) : Prop := w.cells.size ≤ v.id ∧ v.id < u.cells.size

/-- The namespace is in the second world and not in the first one, and so are its vars. -/
structure NewNamespace (w u : World) (n : Namespace) : Prop where
  le : w.tables.size ≤ n.id
  lt : n.id < u.tables.size
  vars : ∀ s v, (s, v) ∈ u.table n → w.NewVar u v

theorem NewVar.extends (h : w.NewVar u v) (hx : u.Extends x) : w.NewVar x v :=
  ⟨h.1, Nat.lt_of_lt_of_le h.2 hx.cells_le⟩

theorem NewNamespace.extends (h : w.NewNamespace u n) (hx : u.Extends x) : w.NewNamespace x n :=
  ⟨h.le, Nat.lt_of_lt_of_le h.lt hx.tables_le, fun s v hv =>
    (h.vars s v (hx.table h.lt ▸ hv)).extends hx⟩

/-- What is new after more has been made is new from the beginning. -/
theorem NewNamespace.of_extends (hu : w.Extends u) (h : u.NewNamespace x n) : w.NewNamespace x n :=
  ⟨Nat.le_trans hu.tables_le h.le, h.lt, fun s v hv =>
    ⟨Nat.le_trans hu.cells_le (h.vars s v hv).1, (h.vars s v hv).2⟩⟩

theorem extends_copyNamespace (w : World) (n : Namespace) :
    w.Extends (w.copyNamespace n).2 ∧ w.NewNamespace (w.copyNamespace n).2 (w.copyNamespace n).1 := by
  unfold copyNamespace
  dsimp only
  refine ⟨⟨by simp, by simp, rfl, fun hn => ?_, fun hv => ?_⟩,
    ⟨Nat.le_refl _, by simp, fun s v hv => ?_⟩⟩
  · unfold table
    dsimp only
    rw [Array.getElem?_push_lt hn, Array.getElem?_eq_getElem hn]
  · unfold cell
    dsimp only
    rw [Array.getElem?_append_left hv]
  · unfold table at hv
    dsimp only at hv
    rw [Array.getElem?_push_size, Option.getD_some] at hv
    obtain ⟨i, hi, heq⟩ := List.mem_mapIdx.mp hv
    obtain ⟨-, rfl⟩ := Prod.mk.inj heq
    exact ⟨Nat.le_add_right _ _, by simpa [table] using hi⟩

theorem extends_copyNamespaces (w : World) (namespaces : List (String × Namespace)) :
    w.Extends (w.copyNamespaces namespaces).2 ∧
      ∀ e ∈ (w.copyNamespaces namespaces).1, w.NewNamespace (w.copyNamespaces namespaces).2 e.2 := by
  induction namespaces generalizing w with
  | nil => exact ⟨.refl w, nofun⟩
  | cons e rest ih =>
    obtain ⟨name, n⟩ := e
    obtain ⟨hcopy, hnew⟩ := w.extends_copyNamespace n
    obtain ⟨hrest, hall⟩ := ih (w.copyNamespace n).2
    unfold copyNamespaces
    dsimp only
    refine ⟨hcopy.trans hrest, List.forall_mem_cons.mpr ⟨hnew.extends hrest, fun e he => ?_⟩⟩
    exact (hall e he).of_extends hcopy

/-- A var of a copy is new. -/
theorem newVar_copyOfVar {copies : List (String × Namespace)}
    (h : ∀ e ∈ copies, w.NewNamespace u e.2) {v v' : Var} (hv : u.copyOfVar? copies v = some v') :
    w.NewVar u v' := by
  unfold copyOfVar? at hv
  dsimp only at hv
  split at hv
  · obtain ⟨n, hn, hv⟩ := Option.bind_eq_some_iff.mp hv
    exact (h _ (mem_of_lookup hn)).vars _ _ (mem_of_lookup hv)
  · cases hv

/-- The second world has come about from the first one by copying, and the third one from the second one
by copying threads. -/
structure Copying (w u x : World) : Prop where
  extends_world : w.Extends x
  tables : x.tables = u.tables
  cells_le : u.cells.size ≤ x.cells.size

theorem Copying.newNamespace {n : Namespace} (h : w.Copying u x) (hn : w.NewNamespace u n) :
    w.NewNamespace x n := by
  have htable : x.table n = u.table n := by
    unfold table
    rw [h.tables]
  refine ⟨hn.le, h.tables ▸ hn.lt, fun s v hv => ?_⟩
  obtain ⟨hle, hlt⟩ := hn.vars s v (htable ▸ hv)
  exact ⟨hle, Nat.lt_of_lt_of_le hlt h.cells_le⟩

theorem Copying.trans {y : World} (h : w.Copying u x) (h' : w.Copying x y) : w.Copying u y :=
  ⟨h'.extends_world, h'.tables.trans h.tables, Nat.le_trans h.cells_le h'.cells_le⟩

theorem copying_setRoot (h : w.Copying u x) {v : Var} (hv : w.NewVar x v) (value : Value) :
    w.Copying u (x.setRoot v value) ∧ w.NewVar (x.setRoot v value) v := by
  have hsize : (x.setRoot v value).cells.size = x.cells.size := by simp [setRoot]
  refine ⟨⟨⟨?_, h.extends_world.tables_le, h.extends_world.registries, h.extends_world.table,
    fun hv' => ?_⟩, h.tables, ?_⟩, hv.1, hsize ▸ hv.2⟩
  · exact hsize ▸ h.extends_world.cells_le
  · rw [cell_setRoot (Nat.ne_of_gt (Nat.lt_of_lt_of_le hv' hv.1))]
    exact h.extends_world.cell hv'
  · exact hsize ▸ h.cells_le

theorem copying_newPrivateVar (h : w.Extends u) (owner : Namespace) (name : Symbol) :
    w.Copying u (u.newPrivateVar owner name none).2 ∧
      w.NewVar (u.newPrivateVar owner name none).2 (u.newPrivateVar owner name none).1 := by
  refine ⟨⟨⟨?_, h.tables_le, h.registries, h.table, fun hv => ?_⟩, rfl, ?_⟩, h.cells_le, ?_⟩
  · exact Nat.le_trans h.cells_le (by simp [newPrivateVar])
  · exact (cell_push (Nat.lt_of_lt_of_le hv h.cells_le) _ _).trans (h.cell hv)
  · simp [newPrivateVar]
  · simp [newPrivateVar]

/-- The state of a thread in a copy is held by a new var. -/
theorem copying_copyThreadState (h : w.Extends u) {copies : List (String × Namespace)}
    (hnew : ∀ e ∈ copies, w.NewNamespace u e.2) (state : ThreadState) :
    w.Copying u (u.copyThreadState copies state).2 ∧
      w.NewVar (u.copyThreadState copies state).2 (u.copyThreadState copies state).1.current := by
  unfold copyThreadState
  dsimp only
  cases hcopy : u.copyOfVar? copies state.current with
  | some v =>
    have hv := newVar_copyOfVar hnew hcopy
    have hu : w.Copying u u := ⟨h, rfl, Nat.le_refl _⟩
    dsimp only
    split
    · exact copying_setRoot hu hv _
    · exact ⟨hu, hv⟩
  | none =>
    have hmade := copying_newPrivateVar h ((copies.lookup coreName).getD default) state.current.name
    dsimp only
    split
    · exact copying_setRoot hmade.1 hmade.2 _
    · exact hmade

theorem copying_copyThreads (h : w.Extends u) {copies : List (String × Namespace)}
    (hnew : ∀ e ∈ copies, w.NewNamespace u e.2) (threads : List (ThreadId × ThreadState)) :
    w.Copying u (u.copyThreads copies threads).2 ∧ ∀ t ∈ (u.copyThreads copies threads).1,
      w.NewVar (u.copyThreads copies threads).2 t.2.current := by
  induction threads generalizing u with
  | nil => exact ⟨⟨h, rfl, Nat.le_refl _⟩, nofun⟩
  | cons t rest ih =>
    obtain ⟨t, state⟩ := t
    obtain ⟨hstate, hv⟩ := copying_copyThreadState h hnew state
    obtain ⟨hrest, hall⟩ := ih hstate.extends_world fun e he => hstate.newNamespace (hnew e he)
    unfold copyThreads
    dsimp only
    exact ⟨hstate.trans hrest, List.forall_mem_cons.mpr
      ⟨⟨hv.1, Nat.lt_of_lt_of_le hv.2 hrest.cells_le⟩, hall⟩⟩

/-- A registry that is made of new things shares nothing with those before it. -/
theorem adds_copied (h : w.Apart) (hu : w.Extends u) {a : Registry}
    (hn : ∀ e ∈ a.namespaces, w.NewNamespace u e.2) (ht : ∀ t ∈ a.threads, w.NewVar u t.2.current) :
    w.Adds w.registries.size { u with registries := u.registries.push a } := by
  have hregistry : ∀ q, ({ u with registries := u.registries.push a } : World).registry q =
      if q = w.registries.size then a else w.registry q := by
    intro q
    rw [registry_push, hu.registries]
    unfold registry
    rw [hu.registries]
  have hhas : ∀ {q n}, ({ u with registries := u.registries.push a } : World).HasNamespace q n →
      w.HasNamespace q n ∨ q = w.registries.size ∧ w.NewNamespace u n := by
    rintro q n ⟨name, hmem⟩
    rw [hregistry] at hmem
    split at hmem
    · exact .inr ⟨‹_›, hn _ hmem⟩
    · exact .inl ⟨name, hmem⟩
  refine ⟨hu.cells_le, hu.tables_le, fun hn => (hhas hn).imp_right fun h => ⟨h.1, h.2.le, h.2.lt⟩, ?_⟩
  rintro q v (⟨hn, hv⟩ | ⟨hmem, hv⟩)
  · obtain hn | ⟨hq, hnew⟩ := hhas hn
    · exact .inl (.table hn (hu.table (h.namespace_lt hn) ▸ hv))
    · exact .inr ⟨hq, hnew.vars _ _ hv⟩
  · rw [hregistry] at hmem
    split at hmem
    · exact .inr ⟨‹_›, hv ▸ ht _ hmem⟩
    · exact .inl (.thread hmem hv)

/-- A copy of a registry shares nothing with those before it. -/
theorem adds_copyRegistry (h : w.Apart) (r : RegistryId) :
    w.Adds w.registries.size (w.copyRegistry r).2 := by
  obtain ⟨hcopies, hnew⟩ := w.extends_copyNamespaces (w.registry r).namespaces
  unfold copyRegistry
  dsimp only
  generalize w.copyNamespaces (w.registry r).namespaces = copies at *
  obtain ⟨hthreads, hvars⟩ := copying_copyThreads hcopies hnew (w.registry r).threads
  generalize copies.2.copyThreads copies.1 (w.registry r).threads = threads at *
  exact adds_copied h hthreads.extends_world (fun e he => hthreads.newNamespace (hnew e he)) hvars

end SmallLisp.World
