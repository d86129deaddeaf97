import SmallLisp.Proofs.World.Functions
import SmallLisp.Proofs.World.Ownership

/-!
# What interning leaves alone

Interning a name in a registry, or the first use of a registry by a thread, may make namespaces and vars for
that registry. It leaves all functions, the contents of all vars and whatever belongs to another registry as
they are, and new vars hold nothing but namespaces of the registry (`World.Interns`).
-/

namespace SmallLisp.World

/-- The second world has come about from the first one by interning in the registry. -/
structure Interns (r : RegistryId) (w u : World) : Prop where
  adds : w.Adds r u
  registry : ∀ {q}, q ≠ r → u.registry q = w.registry q
  table : ∀ {q n}, q ≠ r → w.HasNamespace q n → u.table n = w.table n
  cell : ∀ {v : Var}, v.id < w.cells.size → u.cell v = w.cell v
  closures : u.closures = w.closures
  entry : ∀ {n s v}, (s, v) ∈ u.table n → (s, v) ∈ w.table n ∨ w.cells.size ≤ v.id
  root : ∀ {v x}, w.cells.size ≤ v.id → u.root v = some x →
    ∃ n, x = .ns n ∧ (w.HasNamespace r n ∨ w.tables.size ≤ n.id)

variable {w u x : World} {r : RegistryId}

/-- A var that has not been made has no root. -/
theorem root_of_le {v : Var} (h : w.cells.size ≤ v.id) : w.root v = none := by
  unfold root cell
  rw [Array.getElem?_eq_none h]
  rfl

namespace Interns

/-- Nothing is made for the tables and the vars. -/
theorem of_same (h : w.Adds r u) (hr : ∀ {q}, q ≠ r → u.registry q = w.registry q)
    (hc : u.cells = w.cells) (ht : ∀ n, u.table n = w.table n) (hf : u.closures = w.closures) :
    w.Interns r u := by
  refine ⟨h, hr, fun _ _ => ht _, fun _ => ?_, hf, fun hv => .inl (ht _ ▸ hv), fun hv hx => ?_⟩
  · unfold World.cell
    rw [hc]
  · rw [root_of_le (hc ▸ hv)] at hx
    cases hx

theorem refl (r : RegistryId) (w : World) : w.Interns r w :=
  .of_same (.refl r w) (fun _ => rfl) rfl (fun _ => rfl) rfl

theorem trans (h : w.Interns r u) (h' : u.Interns r x) : w.Interns r x := by
  constructor
  case adds => exact h.adds.trans h'.adds
  case registry => exact fun hq => (h'.registry hq).trans (h.registry hq)
  case table =>
    intro q _ hq hn
    obtain ⟨name, hn⟩ := id hn
    have hn' : u.HasNamespace _ _ := ⟨name, h.registry hq ▸ hn⟩
    exact (h'.table hq hn').trans (h.table hq ⟨name, hn⟩)
  case cell =>
    intro v hv
    exact (h'.cell (Nat.lt_of_lt_of_le hv h.adds.cells_le)).trans (h.cell hv)
  case closures => exact h'.closures.trans h.closures
  case entry =>
    intro n s v hv
    obtain hv | hv := h'.entry hv
    · exact h.entry hv
    · exact .inr (Nat.le_trans h.adds.cells_le hv)
  case root =>
    intro v y hv hx
    by_cases hlt : v.id < u.cells.size
    · have hroot : u.root v = some y := (root_congr (h'.cell hlt)).symm.trans hx
      exact h.root hv hroot
    · obtain ⟨n, rfl, hn | hn⟩ := h'.root (Nat.le_of_not_lt hlt) hx
      · exact ⟨n, rfl, (h.adds.namespaces hn).imp_right fun h => h.2.1⟩
      · exact ⟨n, rfl, .inr (Nat.le_trans h.adds.tables_le hn)⟩

end Interns

theorem registry_modifyRegistry_of_ne (w : World) {q : RegistryId} (hq : q ≠ r)
    (f : Registry → Registry) : (w.modifyRegistry r f).registry q = w.registry q := by
  rw [registry_modifyRegistry, if_neg fun h => hq h.1]

theorem interns_internKeyword (w : World) (r : RegistryId) (s : Symbol) :
    w.Interns r (w.internKeyword r s).2 := by
  have hadds := adds_internKeyword w r s
  unfold internKeyword at *
  split at hadds
  · exact .refl r w
  · exact .of_same hadds (fun hq => registry_modifyRegistry_of_ne w hq _) rfl (fun _ => rfl) rfl

theorem interns_internNamespace (w : World) (r : RegistryId) (name : String) :
    w.Interns r (w.internNamespace r name).2 := by
  have hadds := adds_internNamespace w r name
  unfold internNamespace at *
  split at hadds
  · exact .refl r w
  · refine .of_same hadds (fun hq => ?_) rfl (fun n => ?_) rfl
    · exact registry_modifyRegistry_of_ne { w with tables := w.tables.push [] } hq _
    · rw [table_modifyRegistry, table_push_nil]

theorem interns_internVarIn (w : World) (r : RegistryId) {n : Namespace} (h : w.Only r n)
    (s : Symbol) : w.Interns r (w.internVarIn n s).2 := by
  have hadds := adds_internVarIn w r h s
  unfold internVarIn at *
  split
  · exact .refl r w
  · rename_i hnew
    rw [hnew] at hadds
    refine ⟨hadds, fun _ => rfl, fun {q m} hq hm => ?_, fun hv => cell_push hv _ _, rfl,
      fun hv => ?_, fun hv hx => ?_⟩
    · dsimp only
      rw [table_enter, if_neg fun heq => hq (h q _ hm heq.1.symm)]
    · dsimp only at hv
      rw [table_enter] at hv
      split at hv
      · obtain heq | hv := List.mem_cons.mp hv
        · obtain ⟨-, rfl⟩ := Prod.mk.inj heq
          exact .inr (Nat.le_refl _)
        · exact .inl hv
      · exact .inl hv
    · -- The one new var is unbound.
      unfold root cell at hx
      dsimp only at hx
      rw [Array.getElem?_push] at hx
      split at hx
      · cases hx
      · rw [Array.getElem?_eq_none hv] at hx
        cases hx

theorem interns_internVar (h : w.Apart) (r : RegistryId) (s : Symbol) :
    w.Interns r (w.internVar r s).2 := by
  obtain ⟨fault, heq⟩ | ⟨n, hs, hn⟩ := w.internVar_cases r s
  · rw [heq]
    exact .refl r w
  · rw [w.internVar_of_find r hs hn]
    exact w.interns_internVarIn r (h.only (hasNamespace_of_find hn)) s

/-- A private var that holds a namespace of the registry. -/
theorem Interns.newPrivateVar (h : w.Interns r u) (owner : Namespace) (name : Symbol) {n : Namespace}
    (hn : w.HasNamespace r n ∨ w.tables.size ≤ n.id) :
    w.Interns r (u.newPrivateVar owner name (some (.ns n))).2 := by
  refine ⟨h.adds.trans (adds_newPrivateVar u r _ _ _), h.registry, h.table, fun hv => ?_, h.closures,
    h.entry, fun {v x} hv hx => ?_⟩
  · exact (cell_push (Nat.lt_of_lt_of_le hv h.adds.cells_le) _ _).trans (h.cell hv)
  · by_cases hlt : v.id < u.cells.size
    · exact h.root hv ((root_congr (cell_push hlt _ _)).symm.trans hx)
    · unfold World.root World.cell World.newPrivateVar at hx
      dsimp only at hx
      rw [Array.getElem?_push] at hx
      split at hx
      · cases hx
        exact ⟨n, rfl, hn⟩
      · rw [Array.getElem?_eq_none (Nat.le_of_not_lt hlt)] at hx
        cases hx

/-- What is interned stands in the table of the registry, or is new. -/
theorem owned_internNamespace (w : World) (r : RegistryId) (name : String) :
    w.HasNamespace r (w.internNamespace r name).1 ∨
      w.tables.size ≤ (w.internNamespace r name).1.id := by
  unfold internNamespace
  split
  · rename_i n hn
    exact .inl (hasNamespace_of_find hn)
  · exact .inr (Nat.le_refl _)

theorem interns_defaultThreadState (h : w.Apart) (r : RegistryId) :
    w.Interns r (w.defaultThreadState r).2 := by
  have hcore : w.Interns r (w.internCore r).2 := interns_internNamespace w r coreName
  have honly : (w.internCore r).2.Only r (w.internCore r).1 := only_internNamespace h r coreName
  have howned := owned_internNamespace w r coreName
  change w.HasNamespace r (w.internCore r).1 ∨ w.tables.size ≤ (w.internCore r).1.id at howned
  rw [defaultThreadState_eq]
  generalize w.internCore r = core at *
  have hvar := hcore.newPrivateVar core.1 currentSymbol howned
  exact hvar.trans (interns_internVarIn _ r (honly.newPrivateVar _ _ _) _)

theorem interns_threadState (h : w.Apart) (here : Site) :
    w.Interns here.registry (w.threadState here).2 := by
  have hadds := adds_threadState h here
  unfold threadState at *
  split
  · exact .refl _ w
  · rename_i hnew
    rw [hnew] at hadds
    have hdefault := interns_defaultThreadState h here.registry
    generalize w.defaultThreadState here.registry = made at *
    dsimp only at hadds ⊢
    refine ⟨hadds, fun hq => ?_, hdefault.table, hdefault.cell, hdefault.closures, hdefault.entry,
      hdefault.root⟩
    rw [registry_modifyRegistry, if_neg fun h => hq h.1]
    exact hdefault.registry hq

/-! ## Current namespaces -/

section

variable {here : Site}

/-- A thread that uses the registry for the first time is in the core namespace. -/
theorem currentNamespace_first (h : w.threadState? here = none) :
    (w.currentNamespace here).1 = .ok (w.internCore here.registry).1 := by
  unfold currentNamespace threadState defaultThreadState
  rw [h]
  generalize w.internCore here.registry = core
  dsimp only
  -- The var of the current namespace keeps its root while the other var is entered.
  have hroot : ((core.2.newPrivateVar core.1 currentSymbol (some (.ns core.1))).2.internVarIn core.1
      switchSymbol).2.root (core.2.newPrivateVar core.1 currentSymbol (some (.ns core.1))).1 =
        some (.ns core.1) := by
    have hpush : ∀ (cells : Array Cell) (c : Cell), (cells.push c)[cells.size]? = some c :=
      fun _ _ => Array.getElem?_push_size
    unfold newPrivateVar internVarIn root cell
    split
    · dsimp only
      rw [hpush]
      rfl
    · dsimp only
      rw [Array.getElem?_push, if_neg (by rw [Array.size_push]; omega), hpush]
      rfl
  have hmodify : ∀ (x : World) (f : Registry → Registry) (v : Var),
      (x.modifyRegistry here.registry f).root v = x.root v := fun _ _ _ => rfl
  unfold ThreadState.currentIn
  dsimp only
  rw [hmodify, hroot]

/-- What a thread finds as its current namespace. -/
theorem fst_currentNamespace (w : World) (here : Site) : (w.currentNamespace here).1 =
    match w.threadState? here with
    | some state => state.currentIn w
    | none => .ok (w.internCore here.registry).1 := by
  cases hstate : w.threadState? here with
  | none => exact currentNamespace_first hstate
  | some state =>
    unfold currentNamespace threadState
    rw [hstate]

end

/-- Making a namespace current in one registry is no concern of threads in another one. -/
theorem currentNamespace_switchNamespace (h : w.Apart) {q : RegistryId} (hq : q ≠ r) {core : Namespace}
    (hcore : w.findNamespace? q coreName = some core) (thread other : ThreadId) (name : String) :
    ((w.switchNamespace ⟨r, thread⟩ name).2.currentNamespace ⟨q, other⟩).1 =
      (w.currentNamespace ⟨q, other⟩).1 := by
  have hinterns := w.interns_internNamespace r name
  have hstate := hinterns.trans (interns_threadState (hinterns.adds.apart h) ⟨r, thread⟩)
  have hcurrent := owns_threadState (w.internNamespace r name).2 ⟨r, thread⟩
  unfold switchNamespace
  dsimp only
  generalize (w.internNamespace r name).1 = n at *
  generalize (w.internNamespace r name).2 = u at *
  generalize u.threadState ⟨r, thread⟩ = made at *
  have hregistry : (made.2.setRoot made.1.current (.ns n)).registry q = w.registry q := hstate.registry hq
  have hcell : ∀ v : Var, w.Owns q v → (made.2.setRoot made.1.current (.ns n)).cell v = w.cell v := by
    intro v hv
    have hne : made.1.current.id ≠ v.id := by
      obtain hown | hle := hcurrent
      · obtain hown | ⟨-, hle, -⟩ := hinterns.adds.owned hown
        · exact fun heq => hq (h.var_eq hv hown heq.symm)
        · exact Nat.ne_of_gt (Nat.lt_of_lt_of_le (h.var_lt hv) hle)
      · exact Nat.ne_of_gt (Nat.lt_of_lt_of_le (h.var_lt hv) (Nat.le_trans hinterns.adds.cells_le hle))
    rw [cell_setRoot hne, hstate.cell (h.var_lt hv)]
  generalize made.2.setRoot made.1.current (.ns n) = z at *
  rw [fst_currentNamespace, fst_currentNamespace]
  unfold threadState? ThreadState.currentIn root
  dsimp only
  rw [hregistry]
  cases hthread : (w.registry q).threads.lookup other with
  | some state =>
    dsimp only
    rw [hcell _ (.thread (mem_of_lookup hthread) rfl)]
  | none =>
    have hcore' : z.findNamespace? q coreName = some core := by
      unfold findNamespace?
      rw [hregistry]
      exact hcore
    unfold internCore
    rw [z.internNamespace_of_find q hcore', w.internNamespace_of_find q hcore]

end SmallLisp.World
