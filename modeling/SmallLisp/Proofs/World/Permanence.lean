import SmallLisp.Proofs.World.Separation

/-!
# What stands in a table stays there

Whatever is done to a world, each table of it holds ever after what it has held once, and the namespace that a
var was made for stays its owner (`World.Keeps`). Programs only intern, bind and mark; making a registry, or a
copy of one, touches no table that was there before.
-/

namespace SmallLisp.World

/-- The second world holds in its tables all that the first one holds, under the same names. -/
structure Keeps (w u : World) : Prop where
  registries_le : w.registries.size ≤ u.registries.size
  tables_le : w.tables.size ≤ u.tables.size
  cells_le : w.cells.size ≤ u.cells.size
  registry : ∀ {r}, r < w.registries.size → (w.registry r).Grows (u.registry r)
  var : ∀ {n s v}, w.findVarIn? n s = some v → u.findVarIn? n s = some v
  owner : ∀ {v : Var}, v.id < w.cells.size → (u.cell v).owner = (w.cell v).owner

namespace Keeps

variable {w u x : World}

theorem refl (w : World) : w.Keeps w :=
  ⟨Nat.le_refl _, Nat.le_refl _, Nat.le_refl _, fun _ => .refl _, fun h => h, fun _ => rfl⟩

theorem trans (h : w.Keeps u) (h' : u.Keeps x) : w.Keeps x where
  registries_le := Nat.le_trans h.registries_le h'.registries_le
  tables_le := Nat.le_trans h.tables_le h'.tables_le
  cells_le := Nat.le_trans h.cells_le h'.cells_le
  registry hr := (h.registry hr).trans (h'.registry (Nat.lt_of_lt_of_le hr h.registries_le))
  var hv := h'.var (h.var hv)
  owner hv := (h'.owner (Nat.lt_of_lt_of_le hv h.cells_le)).trans (h.owner hv)

/-- Registries may grow while the tables of the namespaces and the vars stay as they are. -/
theorem of_grows (hs : u.registries.size = w.registries.size) (hr : ∀ r, (w.registry r).Grows (u.registry r))
    (ht : u.tables = w.tables) (hc : u.cells = w.cells) : w.Keeps u where
  registries_le := Nat.le_of_eq hs.symm
  tables_le := Nat.le_of_eq (congrArg Array.size ht.symm)
  cells_le := Nat.le_of_eq (congrArg Array.size hc.symm)
  registry _ := hr _
  var hv := by unfold findVarIn? table at hv ⊢; rwa [ht]
  owner _ := by unfold cell; rw [hc]

/-- What a copy is made of comes on top of what was there. -/
theorem of_extends (h : w.Extends u) : w.Keeps u where
  registries_le := Nat.le_of_eq (congrArg Array.size h.registries.symm)
  tables_le := h.tables_le
  cells_le := h.cells_le
  registry _ := by unfold World.registry; rw [h.registries]; exact .refl _
  var {n s v} hv := by
    have hn : n.id < w.tables.size := by
      refine Nat.lt_of_not_le fun hle => ?_
      unfold findVarIn? at hv
      rw [table_of_le hle] at hv
      cases hv
    unfold findVarIn? at hv ⊢
    rwa [h.table hn]
  owner hv := by rw [h.cell hv]

end Keeps

section

variable (w : World)

theorem keeps_internKeyword (r : RegistryId) (s : Symbol) : w.Keeps (w.internKeyword r s).2 := by
  have hgrows := fun q => w.grows_internKeyword r q s
  unfold internKeyword at *
  split at hgrows
  · exact .refl w
  · exact .of_grows (size_registries_modifyRegistry _ _ _) hgrows rfl rfl

theorem keeps_internNamespace (r : RegistryId) (name : String) : w.Keeps (w.internNamespace r name).2 where
  registries_le := Nat.le_of_eq (size_registries_internNamespace w r name).symm
  tables_le := (adds_internNamespace w r name).tables_le
  cells_le := (adds_internNamespace w r name).cells_le
  registry _ := w.grows_internNamespace r _ name
  var {n s v} hv := by
    unfold findVarIn?
    rw [table_internNamespace]
    exact hv
  owner _ := by unfold internNamespace; split <;> rfl

theorem keeps_internVarIn (n : Namespace) (s : Symbol) : w.Keeps (w.internVarIn n s).2 := by
  unfold internVarIn
  split
  · exact .refl w
  · rename_i hnew
    refine ⟨Nat.le_refl _, by simp, by simp, fun _ => .refl _, fun {m s' v} hv => ?_, fun hv => ?_⟩
    · unfold findVarIn? at hv ⊢
      rw [table_enter]
      split
      · rename_i heq
        have hsame : w.table m = w.table n := by
          unfold table
          rw [heq.1]
        rw [findVarIn?, ← hsame] at hnew
        exact lookup_cons_of_new hnew hv
      · exact hv
    · rw [cell_push hv]

theorem keeps_internVar (r : RegistryId) (s : Symbol) : w.Keeps (w.internVar r s).2 := by
  obtain ⟨fault, heq⟩ | ⟨n, hs, hn⟩ := w.internVar_cases r s
  · rw [heq]
    exact .refl w
  · rw [w.internVar_of_find r hs hn]
    exact w.keeps_internVarIn n s

theorem keeps_newPrivateVar (owner : Namespace) (name : Symbol) (root : Option Value) :
    w.Keeps (w.newPrivateVar owner name root).2 :=
  ⟨Nat.le_refl _, Nat.le_refl _, by simp [newPrivateVar], fun _ => .refl _, fun h => h,
    fun hv => congrArg Cell.owner (cell_push hv _ _)⟩

theorem keeps_addThread (r : RegistryId) {t : ThreadId} (hnew : (w.registry r).threads.lookup t = none)
    (state : ThreadState) : w.Keeps (w.modifyRegistry r (·.addThread t state)) :=
  .of_grows (size_registries_modifyRegistry _ _ _)
    (grows_modifyRegistry (Registry.grows_addThread hnew)) rfl rfl

theorem keeps_defaultThreadState (r : RegistryId) : w.Keeps (w.defaultThreadState r).2 := by
  rw [defaultThreadState_eq]
  exact ((w.keeps_internNamespace r coreName).trans (keeps_newPrivateVar _ _ _ _)).trans
    (keeps_internVarIn _ _ _)

theorem threads_defaultThreadState (r q : RegistryId) :
    ((w.defaultThreadState r).2.registry q).threads = (w.registry q).threads := by
  rw [registry_defaultThreadState]
  exact w.threads_internNamespace r q coreName

theorem keeps_threadState (here : Site) : w.Keeps (w.threadState here).2 := by
  unfold threadState
  split
  · exact .refl w
  · rename_i hnew
    refine (w.keeps_defaultThreadState here.registry).trans (keeps_addThread _ _ ?_ _)
    rw [threads_defaultThreadState]
    exact hnew

theorem keeps_threadStateFrom (here : Site) (first : ThreadState) :
    w.Keeps (w.threadStateFrom here first).2 := by
  unfold threadStateFrom
  split
  · exact .refl w
  · rename_i hnew
    exact w.keeps_addThread _ hnew _

theorem keeps_modifyCell (v : Var) {f : Cell → Cell} (hf : ∀ c, (f c).owner = c.owner) :
    w.Keeps { w with cells := w.cells.modify v.id f } where
  registries_le := Nat.le_refl _
  tables_le := Nat.le_refl _
  cells_le := Nat.le_of_eq (Array.size_modify ..).symm
  registry _ := .refl _
  var hv := hv
  owner {v'} hv := by
    unfold cell
    dsimp only
    rw [Array.getElem?_modify]
    split
    · rw [Array.getElem?_eq_getElem hv]
      exact hf _
    · rfl

theorem keeps_setRoot (v : Var) (x : Value) : w.Keeps (w.setRoot v x) := w.keeps_modifyCell v fun _ => rfl

theorem keeps_setMetadata (v : Var) (x : Value) : w.Keeps (w.setMetadata v x) :=
  w.keeps_modifyCell v fun _ => rfl

/-- Programs remove and replace nothing. -/
theorem keeping (here : Site) : Kept here False fun u => w.Keeps u where
  covered _ _ _ := Closure.covered_free _
  newObject _ h := h.trans (.of_grows rfl (fun _ => .refl _) rfl rfl)
  uniqueName _ h _ := h.trans (.of_grows rfl (fun _ => .refl _) rfl rfl)
  print _ h _ := h.trans (.of_grows rfl (fun _ => .refl _) rfl rfl)
  internKeyword u h s := h.trans (u.keeps_internKeyword _ s)
  internNamespace u h name := h.trans (u.keeps_internNamespace _ name)
  internVar u h s := h.trans (u.keeps_internVar _ s)
  threadState u h := h.trans (u.keeps_threadState here)
  newFunction _ h _ _ := h.trans (.of_grows rfl (fun _ => .refl _) rfl rfl)
  setRoot u h v x := h.trans (u.keeps_setRoot v x)
  setMetadata u h v x := h.trans (u.keeps_setMetadata v x)

/-! ## New registries and copies -/

theorem keeps_push (a : Registry) : w.Keeps { w with registries := w.registries.push a } where
  registries_le := by simp
  tables_le := Nat.le_refl _
  cells_le := Nat.le_refl _
  registry hr := by rw [registry_push, if_neg (Nat.ne_of_lt hr)]; exact .refl _
  var hv := hv
  owner _ := rfl

theorem keeps_defineNative (r : RegistryId) (f : Native) : w.Keeps (w.defineNative r f) :=
  ((w.keeps_internNamespace r coreName).trans (keeps_internVarIn _ _ _)).trans (keeps_setRoot _ _ _)

theorem keeps_defineNatives (fs : List Native) (r : RegistryId) :
    w.Keeps (fs.foldl (·.defineNative r ·) w) := by
  induction fs generalizing w with
  | nil => exact .refl w
  | cons f fs ih => exact (w.keeps_defineNative r f).trans (ih _)

/-- What is made for a new registry comes on top of its core namespace. -/
theorem keeps_newRegistry_core (thread : ThreadId) (limit : Nat) :
    (({ w with registries := w.registries.push ⟨[], [], [], limit⟩ } : World).internCore
      w.registries.size).2.Keeps (w.newRegistry thread limit).2 := by
  unfold newRegistry
  dsimp only
  generalize ({ w with registries := w.registries.push ⟨[], [], [], limit⟩ } : World).internCore
    w.registries.size = core
  refine .trans ?_ (keeps_defineNatives _ _ _)
  refine .trans ?_ (keeps_threadStateFrom _ _ _)
  refine .trans ?_ (keeps_internVarIn _ _ switchSymbol)
  refine .trans ?_ (keeps_setRoot _ _ _)
  exact core.2.keeps_internVarIn _ currentSymbol

theorem keeps_newRegistry (thread : ThreadId) (limit : Nat) : w.Keeps (w.newRegistry thread limit).2 :=
  ((w.keeps_push _).trans (keeps_internNamespace _ _ coreName)).trans (w.keeps_newRegistry_core thread limit)

theorem keeps_copyRegistry (r : RegistryId) : w.Keeps (w.copyRegistry r).2 := by
  obtain ⟨hcopies, hnew⟩ := w.extends_copyNamespaces (w.registry r).namespaces
  unfold copyRegistry
  dsimp only
  generalize w.copyNamespaces (w.registry r).namespaces = copies at *
  obtain ⟨hthreads, -⟩ := copying_copyThreads hcopies hnew (w.registry r).threads
  exact (Keeps.of_extends hthreads.extends_world).trans (keeps_push _ _)

end

end SmallLisp.World
