import Mathlib.Data.List.Forall2
import Mathlib.Data.List.Nodup
import SmallLisp.Proofs.World.Registered

/-!
# What a copy is

A copy of a registry has the same names, and under them new things: each namespace and each var has a copy of
its own (`World.NamespaceCopy`, `World.VarCopy`), and each thread a state of its own (`World.ThreadCopy`).
-/

namespace SmallLisp.World

variable {w u x : World}

/-! ## Namespaces -/

/-- The second var is a new one of the same name, root and metadata, which the namespace owns. -/
structure VarCopy (w u : World) (copy : Namespace) (v v' : Var) : Prop where
  new : w.NewVar u v'
  name : v'.name = v.name
  cell : u.cell v' = { w.cell v with owner := copy }

/-- The second namespace is a new one of the same name, whose vars are copies of those of the first one. -/
structure NamespaceCopy (w u : World) (n copy : Namespace) : Prop where
  new : w.NewNamespace u copy
  name : copy.name = n.name
  vars : List.Forall₂ (fun e e' => e'.1 = e.1 ∧ w.VarCopy u copy e.2 e'.2) (w.table n) (u.table copy)
  distinct : ((u.table copy).map (·.2.id)).Nodup

/-- The namespace and its vars have been made. -/
structure Made (w : World) (n : Namespace) : Prop where
  lt : n.id < w.tables.size
  vars : ∀ {s v}, (s, v) ∈ w.table n → v.id < w.cells.size

theorem VarCopy.extends {copy : Namespace} {v v' : Var} (h : w.VarCopy u copy v v') (hx : u.Extends x) :
    w.VarCopy x copy v v' :=
  ⟨h.new.extends hx, h.name, (hx.cell h.new.2).trans h.cell⟩

theorem NamespaceCopy.extends {n copy : Namespace} (h : w.NamespaceCopy u n copy) (hx : u.Extends x) :
    w.NamespaceCopy x n copy where
  new := h.new.extends hx
  name := h.name
  vars := by
    rw [hx.table h.new.lt]
    exact h.vars.imp fun _ _ hv => ⟨hv.1, hv.2.extends hx⟩
  distinct := by
    rw [hx.table h.new.lt]
    exact h.distinct

/-- What is copied after more has been made is a copy from the beginning. -/
theorem NamespaceCopy.of_extends {n copy : Namespace} (hu : w.Extends u) (hn : w.Made n)
    (h : u.NamespaceCopy x n copy) : w.NamespaceCopy x n copy where
  new := h.new.of_extends hu
  name := h.name
  vars := by
    have hvars := h.vars
    rw [hu.table hn.lt] at hvars
    refine ((List.forall₂_and_left _ _).mpr ⟨fun _ => id, hvars⟩).imp fun e e' he => ?_
    obtain ⟨hmem, hkey, hnew, hname, hcell⟩ := he
    have hlt : e.2.id < w.cells.size := hn.vars hmem
    exact ⟨hkey, ⟨Nat.le_trans hu.cells_le hnew.1, hnew.2⟩, hname, hu.cell hlt ▸ hcell⟩
  distinct := h.distinct

/-- The vars of a copy have the numbers from the first free one on, in the order of the table. -/
theorem table_copyNamespace (w : World) (n : Namespace) :
    (w.copyNamespace n).2.table (w.copyNamespace n).1 =
      (w.table n).mapIdx fun i e => (e.1, ⟨w.cells.size + i, e.2.name⟩) := by
  unfold copyNamespace table
  dsimp only
  rw [Array.getElem?_push_size]
  rfl

theorem cell_copyNamespace (w : World) (n : Namespace) {i : Nat} (hi : i < (w.table n).length)
    (name : Symbol) :
    (w.copyNamespace n).2.cell ⟨w.cells.size + i, name⟩ =
      { w.cell (w.table n)[i].2 with owner := (w.copyNamespace n).1 } := by
  unfold copyNamespace
  dsimp only
  show ((w.cells ++ (List.map _ (w.table n)).toArray)[w.cells.size + i]?).getD default = _
  rw [Array.getElem?_append_right (Nat.le_add_right _ _), Nat.add_sub_cancel_left, List.getElem?_toArray,
    List.getElem?_map, List.getElem?_eq_getElem hi]
  rfl

theorem namespaceCopy_copyNamespace (w : World) (n : Namespace) :
    w.NamespaceCopy (w.copyNamespace n).2 n (w.copyNamespace n).1 := by
  obtain ⟨-, hnew⟩ := w.extends_copyNamespace n
  refine ⟨hnew, rfl, ?_, ?_⟩
  · refine List.forall₂_iff_get.mpr ⟨?_, fun i hi hi' => ?_⟩
    · rw [table_copyNamespace, List.length_mapIdx]
    · have hentry : ((w.copyNamespace n).2.table (w.copyNamespace n).1).get ⟨i, hi'⟩ =
          ((w.table n)[i].1, ⟨w.cells.size + i, (w.table n)[i].2.name⟩) := by
        simp [table_copyNamespace]
      have hvar := hnew.vars _ _ (hentry ▸ List.get_mem _ _)
      rw [hentry]
      exact ⟨rfl, hvar, rfl, w.cell_copyNamespace n hi _⟩
  · rw [table_copyNamespace]
    refine List.pairwise_map.mpr (List.pairwise_iff_getElem.mpr fun i j hi hj hij => ?_)
    simp only [List.getElem_mapIdx]
    omega

/-- Each namespace of the list has a copy of its own under the same name. -/
theorem namespaceCopies_copyNamespaces (hw : w.Extends u) {namespaces : List (String × Namespace)}
    (hmade : ∀ e ∈ namespaces, w.Made e.2) :
    List.Forall₂ (fun e e' => e'.1 = e.1 ∧ w.NamespaceCopy (u.copyNamespaces namespaces).2 e.2 e'.2)
        namespaces (u.copyNamespaces namespaces).1 ∧
      ((u.copyNamespaces namespaces).1.map (·.2.id)).Nodup := by
  induction namespaces generalizing u with
  | nil => exact ⟨.nil, .nil⟩
  | cons e rest ih =>
    obtain ⟨name, n⟩ := e
    obtain ⟨hn, hmade⟩ := List.forall_mem_cons.mp hmade
    obtain ⟨hextends, -⟩ := u.extends_copyNamespace n
    have hcopy := (u.namespaceCopy_copyNamespace n).of_extends hw hn
    obtain ⟨hcopies, hdistinct⟩ := ih (hw.trans hextends) hmade
    obtain ⟨hrest, hnew⟩ := (u.copyNamespace n).2.extends_copyNamespaces rest
    unfold copyNamespaces
    dsimp only
    refine ⟨.cons ⟨rfl, hcopy.extends hrest⟩ hcopies, List.nodup_cons.mpr ⟨fun hmem => ?_, hdistinct⟩⟩
    obtain ⟨e', he', heq⟩ := List.mem_map.mp hmem
    exact Nat.ne_of_gt (Nat.lt_of_lt_of_le hcopy.new.lt (hnew e' he').le) heq

/-! ## Looking up copies -/

/-- What stands under a key is found beside what stands under the same key in the other list. -/
theorem forall₂_lookup {α β : Type} [BEq α] {R : β → β → Prop} {as bs : List (α × β)}
    (h : List.Forall₂ (fun e e' => e'.1 = e.1 ∧ R e.2 e'.2) as bs) {key : α} {a : β}
    (ha : as.lookup key = some a) : ∃ b, bs.lookup key = some b ∧ R a b := by
  induction h with
  | nil => cases ha
  | @cons e e' as bs hee hrest ih =>
    obtain ⟨k, a'⟩ := e
    obtain ⟨k', b'⟩ := e'
    obtain ⟨rfl, hr⟩ := hee
    dsimp only at hr
    rw [List.lookup_cons] at ha ⊢
    cases hkey : key == k' with
    | true =>
      rw [hkey] at ha
      cases ha
      exact ⟨b', rfl, hr⟩
    | false =>
      rw [hkey] at ha
      exact ih ha

/-- Two lists side by side have the same keys. -/
theorem forall₂_keys {α β : Type} {R : α × β → α × β → Prop} {as bs : List (α × β)}
    (h : List.Forall₂ (fun e e' => e'.1 = e.1 ∧ R e e') as bs) : bs.map Prod.fst = as.map Prod.fst := by
  induction h with
  | nil => rfl
  | cons hee _ ih => exact congrArg₂ List.cons hee.1 ih

theorem exists_of_forall₂ {α β : Type} {R : α → β → Prop} {as : List α} {bs : List β}
    (h : List.Forall₂ R as bs) {b : β} (hb : b ∈ bs) : ∃ a ∈ as, R a b := by
  induction h with
  | nil => cases hb
  | @cons a b' as bs hr hrest ih =>
    obtain rfl | hb := List.mem_cons.mp hb
    · exact ⟨a, List.mem_cons_self, hr⟩
    · obtain ⟨a', ha', hr'⟩ := ih hb
      exact ⟨a', List.mem_cons_of_mem _ ha', hr'⟩

theorem NamespaceCopy.find {n copy : Namespace} (h : w.NamespaceCopy u n copy) {s : Symbol} {v : Var}
    (hv : w.findVarIn? n s = some v) : ∃ v', u.findVarIn? copy s = some v' ∧ w.VarCopy u copy v v' :=
  forall₂_lookup h.vars hv

/-- In a copy, a number stands for one var. -/
theorem NamespaceCopy.same_var {n copy : Namespace} (h : w.NamespaceCopy u n copy) {s s' : Symbol}
    {v v' : Var} (hv : (s, v) ∈ u.table copy) (hv' : (s', v') ∈ u.table copy) (heq : v.id = v'.id) : s = s' :=
  congrArg Prod.fst (List.inj_on_of_nodup_map h.distinct hv hv' heq)

theorem Registered.made {r : RegistryId} (h : w.Registered) {n : Namespace} (hn : w.HasNamespace r n) :
    w.Made n :=
  ⟨h.namespace_lt hn, fun hv => h.var_lt (.table hn hv)⟩

/-- The namespaces of a registry have been copied. -/
structure Copied (w u : World) (r : RegistryId) (copies : List (String × Namespace)) : Prop where
  registered : w.Registered
  extends_world : w.Extends u
  namespaces : List.Forall₂ (fun e e' => e'.1 = e.1 ∧ w.NamespaceCopy u e.2 e'.2) (w.registry r).namespaces
    copies
  distinct : (copies.map (·.2.id)).Nodup

theorem Registered.copied (h : w.Registered) (r : RegistryId) :
    w.Copied (w.copyNamespaces (w.registry r).namespaces).2 r
      (w.copyNamespaces (w.registry r).namespaces).1 := by
  have hmade : ∀ e ∈ (w.registry r).namespaces, w.Made e.2 := fun e he => h.made ⟨e.1, he⟩
  obtain ⟨hcopies, hdistinct⟩ := namespaceCopies_copyNamespaces (.refl w) hmade
  exact ⟨h, (w.extends_copyNamespaces _).1, hcopies, hdistinct⟩

namespace Copied

variable {r : RegistryId} {copies : List (String × Namespace)} {n : Namespace} {s : Symbol} {v v' : Var}

theorem find (h : w.Copied u r copies) {name : String} (hn : w.findNamespace? r name = some n) :
    ∃ copy, copies.lookup name = some copy ∧ w.NamespaceCopy u n copy :=
  forall₂_lookup h.namespaces hn

/-- The copy of a var that stands in a table is found where the var is. -/
theorem copyOfVar_of_find (h : w.Copied u r copies) {name : String} (hn : w.findNamespace? r name = some n)
    (hv : w.findVarIn? n s = some v) : ∃ copy v', copies.lookup name = some copy ∧ w.NamespaceCopy u n copy ∧
      u.findVarIn? copy s = some v' ∧ w.VarCopy u copy v v' ∧ u.copyOfVar? copies v = some v' := by
  obtain ⟨copy, hcopy, hnamespace⟩ := h.find hn
  obtain ⟨v', hv', hvar⟩ := hnamespace.find hv
  have hhas := hasNamespace_of_find hn
  have hmade := h.registered.made hhas
  obtain ⟨hname, -, howner⟩ := h.registered.var hhas (mem_of_lookup hv)
  refine ⟨copy, v', hcopy, hnamespace, hv', hvar, ?_⟩
  have hfound : u.findVarIn? n v.name = some v := by
    rw [hname, findVarIn?, h.extends_world.table hmade.lt]
    exact hv
  unfold copyOfVar?
  dsimp only
  rw [h.extends_world.cell (hmade.vars (mem_of_lookup hv)), howner, hfound,
    (h.registered.named r).namespace_name (mem_of_lookup hn), hcopy, hname]
  exact (if_pos rfl).trans hv'

/-- A var that has a copy stands in the table of its owner. -/
theorem find_of_copyOfVar (h : w.Copied u r copies) (hlt : v.id < w.cells.size)
    (howner : w.HasNamespace r (w.cell v).owner) (hv : u.copyOfVar? copies v = some v') :
    w.findVarIn? (w.cell v).owner v.name = some v := by
  have hmade := h.registered.made howner
  unfold copyOfVar? at hv
  dsimp only at hv
  rw [h.extends_world.cell hlt] at hv
  split at hv
  · rename_i hid
    obtain ⟨z, hz, hzid⟩ := Option.map_eq_some_iff.mp hid
    unfold findVarIn? at hz ⊢
    rw [h.extends_world.table hmade.lt] at hz
    obtain ⟨hname, -, -⟩ := h.registered.var howner (mem_of_lookup hz)
    have hsame : z = v := by
      cases z
      cases v
      cases hzid
      cases hname
      rfl
    exact hsame ▸ hz
  · cases hv

end Copied

/-! ## Threads -/

/-- Only tables and owners matter for the copy of a var. -/
theorem copyOfVar_congr {y : World} {copies : List (String × Namespace)} {v : Var} (ht : y.tables = u.tables)
    (ho : (y.cell v).owner = (u.cell v).owner) : y.copyOfVar? copies v = u.copyOfVar? copies v := by
  unfold copyOfVar? findVarIn? table
  rw [ht, ho]

/-- The namespace that a thread is in after copying: the copy of the one that it is in, or the copy of the
core namespace if there is none. -/
def copyTarget (u : World) (copies : List (String × Namespace)) (core : Namespace) (state : ThreadState) :
    Namespace :=
  match state.currentIn u with
  | .ok n => (copies.lookup n.name).getD core
  | .error _ => core

/-- The second state is that of a thread in a copy, if the first one is that of the thread itself: its
vars are copies of the vars of the first one. Only if the var of the current namespace has no copy it is a
new one, which stands in no table. -/
structure ThreadCopy (u x : World) (copies : List (String × Namespace)) (core : Namespace)
    (state state' : ThreadState) : Prop where
  current : u.copyOfVar? copies state.current = some state'.current ∨
    u.copyOfVar? copies state.current = none ∧ u.NewVar x state'.current ∧
      (x.cell state'.current).owner = core
  root : x.root state'.current = some (.ns (u.copyTarget copies core state))
  switch : state'.switch = (u.copyOfVar? copies state.switch).getD state.switch

/-- The second world has come about from the first one by making vars and by binding these vars. -/
structure Binds (y x : World) (bound : Nat → Prop) : Prop where
  cells_le : y.cells.size ≤ x.cells.size
  cell : ∀ {v : Var}, v.id < y.cells.size → ¬ bound v.id → x.cell v = y.cell v
  owner : ∀ {v : Var}, v.id < y.cells.size → (x.cell v).owner = (y.cell v).owner
  metadata : ∀ {v : Var}, v.id < y.cells.size → (x.cell v).metadata = (y.cell v).metadata

theorem Binds.trans {y z : World} {bound bound' : Nat → Prop} (h : y.Binds z bound) (h' : z.Binds x bound') :
    y.Binds x fun id => bound id ∨ bound' id where
  cells_le := Nat.le_trans h.cells_le h'.cells_le
  cell hv hb := (h'.cell (Nat.lt_of_lt_of_le hv h.cells_le) (mt .inr hb)).trans (h.cell hv (mt .inl hb))
  owner hv := (h'.owner (Nat.lt_of_lt_of_le hv h.cells_le)).trans (h.owner hv)
  metadata hv := (h'.metadata (Nat.lt_of_lt_of_le hv h.cells_le)).trans (h.metadata hv)

theorem Binds.mono {y : World} {bound bound' : Nat → Prop} (h : y.Binds x bound)
    (hb : ∀ id, bound id → bound' id) : y.Binds x bound' :=
  ⟨h.cells_le, fun hv hn => h.cell hv (mt (hb _) hn), h.owner, h.metadata⟩

theorem binds_setRoot (y : World) (v : Var) (value : Value) : y.Binds (y.setRoot v value) (· = v.id) where
  cells_le := Nat.le_of_eq (by simp [setRoot])
  cell _ hb := cell_setRoot (Ne.symm hb) value
  owner {v'} hv := (y.keeps_setRoot v value).owner hv
  metadata {v'} hv := by
    unfold cell setRoot
    dsimp only
    rw [Array.getElem?_modify, Array.getElem?_eq_getElem hv]
    split <;> rfl

theorem binds_newPrivateVar (y : World) (owner : Namespace) (name : Symbol) (root : Option Value) :
    y.Binds (y.newPrivateVar owner name root).2 fun _ => False where
  cells_le := by simp [newPrivateVar]
  cell hv _ := cell_push hv _ _
  owner hv := congrArg Cell.owner (cell_push hv _ _)
  metadata hv := congrArg Cell.metadata (cell_push hv _ _)

theorem root_setRoot_of_lt {y : World} {v : Var} (h : v.id < y.cells.size) (value : Value) :
    (y.setRoot v value).root v = some value := by
  unfold root cell setRoot
  dsimp only
  rw [Array.getElem?_modify, if_pos rfl, Array.getElem?_eq_getElem h]
  rfl

/-- What holds the current namespace of a thread in a copy, before it is bound. -/
def copyCurrent (y : World) (copies : List (String × Namespace)) (core : Namespace) (v : Var) : Var × World :=
  match y.copyOfVar? copies v with
  | some v' => (v', y)
  | none => y.newPrivateVar core v.name none

/-- The state of a thread in a copy that has a core namespace. -/
theorem copyThreadState_eq (y : World) {copies : List (String × Namespace)} {core : Namespace}
    (hcore : copies.lookup coreName = some core) (state : ThreadState) :
    y.copyThreadState copies state =
      let made := y.copyCurrent copies core state.current
      let z := made.2.setRoot made.1 (.ns (y.copyTarget copies core state))
      (⟨made.1, (z.copyOfVar? copies state.switch).getD state.switch⟩, z) := by
  unfold copyThreadState copyCurrent copyTarget
  dsimp only
  rw [hcore]
  cases y.copyOfVar? copies state.current with
  | none =>
    cases state.currentIn y with
    | error e => rfl
    | ok n =>
      dsimp only
      cases copies.lookup n.name <;> rfl
  | some v =>
    cases state.currentIn y with
    | error e => rfl
    | ok n =>
      dsimp only
      cases copies.lookup n.name <;> rfl

/-- The state of a thread stays a copy while vars of other threads are bound. -/
theorem ThreadCopy.binds {y : World} {copies : List (String × Namespace)} {core : Namespace}
    {state state' : ThreadState} {bound : Nat → Prop} (h : u.ThreadCopy y copies core state state')
    (hb : y.Binds x bound) (hlt : state'.current.id < y.cells.size) (hn : ¬ bound state'.current.id) :
    u.ThreadCopy x copies core state state' where
  current := h.current.imp_right fun ⟨hnone, hnew, howner⟩ =>
    ⟨hnone, ⟨hnew.1, Nat.lt_of_lt_of_le hnew.2 hb.cells_le⟩, (hb.owner hlt).trans howner⟩
  root := (root_congr (hb.cell hlt hn)).trans h.root
  switch := h.switch

/-- What has become of the threads of a list. -/
structure ThreadsCopied (u y x : World) (copies : List (String × Namespace)) (core : Namespace)
    (threads states : List (ThreadId × ThreadState)) : Prop where
  each : List.Forall₂ (fun e e' => e'.1 = e.1 ∧ u.ThreadCopy x copies core e.2 e'.2) threads states
  distinct : (states.map (·.2.current.id)).Nodup
  binds : y.Binds x fun id => ∃ e ∈ states, e.2.current.id = id
  place : ∀ e ∈ states, e.2.current.id < u.cells.size ∨ y.cells.size ≤ e.2.current.id

namespace Copied

variable {r : RegistryId} {copies : List (String × Namespace)} {core : Namespace} {y : World}

theorem newNamespace (h : w.Copied u r copies) {e : String × Namespace} (he : e ∈ copies) :
    w.NewNamespace u e.2 := by
  obtain ⟨_, -, -, hcopy⟩ := exists_of_forall₂ h.namespaces he
  exact hcopy.new

/-- While threads are copied, copies of vars that were there before are found as before. -/
theorem copyOfVar_eq (h : w.Copied u r copies) (hy : w.Copying u y) {v : Var} (hv : v.id < w.cells.size) :
    y.copyOfVar? copies v = u.copyOfVar? copies v :=
  copyOfVar_congr hy.tables (congrArg Cell.owner
    ((hy.extends_world.cell hv).trans (h.extends_world.cell hv).symm))

theorem copyTarget_eq (h : w.Copied u r copies) (hy : w.Copying u y) {state : ThreadState}
    (hv : state.current.id < w.cells.size) :
    y.copyTarget copies core state = u.copyTarget copies core state := by
  unfold copyTarget ThreadState.currentIn root
  rw [hy.extends_world.cell hv, h.extends_world.cell hv]

/-- A thread is copied: its new state is made of copies, and only its var has been bound. -/
theorem threadCopy_copyThreadState (h : w.Copied u r copies) (hy : w.Copying u y)
    (hcore : copies.lookup coreName = some core) {state : ThreadState}
    (hcurrent : state.current.id < w.cells.size) (hswitch : state.switch.id < w.cells.size) :
    u.ThreadCopy (y.copyThreadState copies state).2 copies core state (y.copyThreadState copies state).1 ∧
      y.Binds (y.copyThreadState copies state).2 (· = (y.copyThreadState copies state).1.current.id) ∧
      ((y.copyThreadState copies state).1.current.id < u.cells.size ∨
        y.cells.size ≤ (y.copyThreadState copies state).1.current.id) ∧
      (y.copyThreadState copies state).1.current.id < (y.copyThreadState copies state).2.cells.size := by
  have hnew : ∀ e ∈ copies, w.NewNamespace u e.2 := fun e he => h.newNamespace he
  have hcopying := (copying_copyThreadState hy.extends_world
    (fun e he => hy.newNamespace (hnew e he)) state).1
  have hz : w.Copying u (y.copyThreadState copies state).2 := hy.trans hcopying
  have hsame := h.copyOfVar_eq hy hcurrent
  rw [copyThreadState_eq y hcore] at hz ⊢
  dsimp only at hz ⊢
  rw [h.copyOfVar_eq hz hswitch, h.copyTarget_eq hy hcurrent]
  unfold copyCurrent at hz ⊢
  rw [hsame] at hz ⊢
  cases hcopy : u.copyOfVar? copies state.current with
  | some v =>
    have hv : v.id < u.cells.size := (newVar_copyOfVar hnew hcopy).2
    have hvy := Nat.lt_of_lt_of_le hv hy.cells_le
    dsimp only
    have hbinds := binds_setRoot y v (.ns (u.copyTarget copies core state))
    exact ⟨⟨.inl hcopy, root_setRoot_of_lt hvy _, rfl⟩, hbinds, .inl hv,
      Nat.lt_of_lt_of_le hvy hbinds.cells_le⟩
  | none =>
    dsimp only
    have hmade := binds_newPrivateVar y core state.current.name none
    have hlt : (y.newPrivateVar core state.current.name none).1.id <
        (y.newPrivateVar core state.current.name none).2.cells.size := by
      simp [newPrivateVar]
    have howner : ((y.newPrivateVar core state.current.name none).2.cell
        (y.newPrivateVar core state.current.name none).1).owner = core := by
      unfold newPrivateVar cell
      dsimp only
      rw [Array.getElem?_push_size]
      rfl
    have hle : y.cells.size ≤ (y.newPrivateVar core state.current.name none).1.id := Nat.le_refl _
    generalize y.newPrivateVar core state.current.name none = made at *
    have hbinds := binds_setRoot made.2 made.1 (.ns (u.copyTarget copies core state))
    have hltz := Nat.lt_of_lt_of_le hlt hbinds.cells_le
    refine ⟨⟨.inr ⟨hcopy, ⟨Nat.le_trans hy.cells_le hle, hltz⟩, ?_⟩, root_setRoot_of_lt hlt _, rfl⟩,
      (hmade.trans hbinds).mono fun _ hb => hb.resolve_left id, .inr hle, hltz⟩
    exact (hbinds.owner hlt).trans howner

/-- Threads are copied one after the other, and none binds the var of another one. -/
theorem threadsCopied_copyThreads (h : w.Copied u r copies) (hy : w.Copying u y)
    (hcore : copies.lookup coreName = some core) {threads : List (ThreadId × ThreadState)}
    (hlt : ∀ e ∈ threads, e.2.current.id < w.cells.size ∧ e.2.switch.id < w.cells.size)
    (hdistinct : threads.Pairwise fun e e' => ∀ v, u.copyOfVar? copies e.2.current = some v →
      ∀ v', u.copyOfVar? copies e'.2.current = some v' → v.id ≠ v'.id) :
    ThreadsCopied u y (y.copyThreads copies threads).2 copies core threads
      (y.copyThreads copies threads).1 := by
  induction threads generalizing y with
  | nil =>
    exact ⟨.nil, .nil, ⟨Nat.le_refl _, fun _ _ => rfl, fun _ => rfl, fun _ => rfl⟩, nofun⟩
  | cons e rest ih =>
    obtain ⟨t, state⟩ := e
    obtain ⟨⟨hcurrent, hswitch⟩, hlt⟩ := List.forall_mem_cons.mp hlt
    obtain ⟨hother, hdistinct⟩ := List.pairwise_cons.mp hdistinct
    have hnew : ∀ e ∈ copies, w.NewNamespace u e.2 := fun e he => h.newNamespace he
    have hz := hy.trans (copying_copyThreadState hy.extends_world
      (fun e he => hy.newNamespace (hnew e he)) state).1
    obtain ⟨hcopy, hbinds, hplace, hmade⟩ := h.threadCopy_copyThreadState hy hcore hcurrent hswitch
    obtain ⟨hstates, hnodup, hrest, hplaces⟩ := ih hz hlt hdistinct
    unfold copyThreads
    dsimp only
    generalize y.copyThreadState copies state = first at *
    generalize first.2.copyThreads copies rest = last at *
    have hne : ∀ e ∈ last.1, e.2.current.id ≠ first.1.current.id := by
      intro e he heq
      obtain ⟨b, hb, -, hbcopy⟩ := exists_of_forall₂ hstates he
      have hinterned : ∀ {v v'}, u.copyOfVar? copies v = some v' → v'.id < u.cells.size :=
        fun hv => (newVar_copyOfVar hnew hv).2
      obtain hv | ⟨-, hfresh, -⟩ := hbcopy.current
      · obtain hv' | ⟨-, hfresh', -⟩ := hcopy.current
        · exact hother b hb _ hv' _ hv heq.symm
        · exact Nat.ne_of_lt (Nat.lt_of_lt_of_le (hinterned hv) hfresh'.1) heq
      · obtain hlow | hhigh := hplaces e he
        · exact Nat.not_le_of_lt hlow hfresh.1
        · exact Nat.ne_of_gt (Nat.lt_of_lt_of_le hmade hhigh) heq
    refine ⟨.cons ⟨rfl, hcopy.binds hrest hmade ?_⟩ hstates, List.nodup_cons.mpr ⟨?_, hnodup⟩,
      (hbinds.trans hrest).mono ?_, ?_⟩
    · rintro ⟨e, he, heq⟩
      exact hne e he heq
    · intro hmem
      obtain ⟨e, he, heq⟩ := List.mem_map.mp hmem
      exact hne e he heq
    · rintro id (rfl | ⟨e, he, rfl⟩)
      · exact ⟨_, List.mem_cons_self, rfl⟩
      · exact ⟨e, List.mem_cons_of_mem _ he, rfl⟩
    · refine List.forall_mem_cons.mpr ⟨hplace, fun e he => ?_⟩
      exact (hplaces e he).imp_right (Nat.le_trans hbinds.cells_le)

/-- Different vars have different copies. -/
theorem copyOfVar_inj (h : w.Copied u r copies) {v₁ v₂ v₁' v₂' : Var} (hlt₁ : v₁.id < w.cells.size)
    (hlt₂ : v₂.id < w.cells.size) (howner₁ : w.HasNamespace r (w.cell v₁).owner)
    (howner₂ : w.HasNamespace r (w.cell v₂).owner) (h₁ : u.copyOfVar? copies v₁ = some v₁')
    (h₂ : u.copyOfVar? copies v₂ = some v₂') (heq : v₁'.id = v₂'.id) : v₁ = v₂ := by
  have hnamed := h.registered.named r
  have hv₁ := h.find_of_copyOfVar hlt₁ howner₁ h₁
  have hv₂ := h.find_of_copyOfVar hlt₂ howner₂ h₂
  obtain ⟨name₁, hmem₁⟩ := howner₁
  obtain ⟨name₂, hmem₂⟩ := howner₂
  have hfind₁ := lookup_of_mem hnamed.namespace_keys hmem₁
  have hfind₂ := lookup_of_mem hnamed.namespace_keys hmem₂
  obtain ⟨copy₁, z₁, -, hcopy₁, hz₁, hvar₁, hv₁'⟩ := h.copyOfVar_of_find hfind₁ hv₁
  obtain ⟨copy₂, z₂, -, hcopy₂, hz₂, hvar₂, hv₂'⟩ := h.copyOfVar_of_find hfind₂ hv₂
  obtain rfl := Option.some.inj (hv₁'.symm.trans h₁)
  obtain rfl := Option.some.inj (hv₂'.symm.trans h₂)
  -- Both copies have the same owner, so they stand in the same table.
  have hcell : u.cell z₁ = u.cell z₂ := by
    unfold cell
    rw [heq]
  have hcopies : copy₁ = copy₂ := by
    have howner := congrArg Cell.owner hcell
    rwa [hvar₁.cell, hvar₂.cell] at howner
  obtain rfl := hcopies
  have hname : name₁ = name₂ :=
    ((hnamed.namespace_name hmem₁).symm.trans hcopy₁.name.symm).trans
      (hcopy₂.name.trans (hnamed.namespace_name hmem₂))
  obtain rfl := hname
  rw [Option.some.inj (hfind₁.symm.trans hfind₂),
    hcopy₁.same_var (mem_of_lookup hz₁) (mem_of_lookup hz₂) heq, hv₂] at hv₁
  exact (Option.some.inj hv₁).symm

/-- The vars that hold the current namespaces of threads have different copies. -/
theorem copies_distinct (h : w.Copied u r copies) :
    (w.registry r).threads.Pairwise fun e e' => ∀ v, u.copyOfVar? copies e.2.current = some v →
      ∀ v', u.copyOfVar? copies e'.2.current = some v' → v.id ≠ v'.id := by
  have hkeys := List.pairwise_map.mp (h.registered.named r).thread_keys
  refine hkeys.imp_of_mem fun {e e'} he he' hne v hv v' hv' heq => hne ?_
  have howner := hasNamespace_of_find (h.registered.thread he).found
  have howner' := hasNamespace_of_find (h.registered.thread he').found
  have hsame := h.copyOfVar_inj (h.registered.var_lt (.thread he rfl)) (h.registered.var_lt (.thread he' rfl))
    howner howner' hv hv' heq
  exact h.registered.same_current he he' (congrArg Var.id hsame)

end Copied

/-! ## Registries -/

/-- The steps of copying a registry: the namespaces are copied, then the threads, and the copies are put
together in a new registry. -/
structure CopySteps (w u x : World) (r : RegistryId) (copies : List (String × Namespace))
    (states : List (ThreadId × ThreadState)) : Prop where
  copied : w.Copied u r copies
  copying : w.Copying u x
  each : List.Forall₂ (fun e e' => e'.1 = e.1 ∧ ∃ core, copies.lookup coreName = some core ∧
    u.ThreadCopy x copies core e.2 e'.2) (w.registry r).threads states
  distinct : (states.map (·.2.current.id)).Nodup
  binds : u.Binds x fun id => ∃ e ∈ states, e.2.current.id = id
  number : (w.copyRegistry r).1 = w.registries.size
  result : (w.copyRegistry r).2 =
    { x with registries := x.registries.push { w.registry r with namespaces := copies, threads := states } }

theorem Registered.copySteps (h : w.Registered) (r : RegistryId) :
    ∃ u x copies states, w.CopySteps u x r copies states := by
  have hcopied := h.copied r
  have hnew : ∀ e ∈ (w.copyNamespaces (w.registry r).namespaces).1,
      w.NewNamespace (w.copyNamespaces (w.registry r).namespaces).2 e.2 := fun e he => hcopied.newNamespace he
  have hcopying := (copying_copyThreads hcopied.extends_world hnew (w.registry r).threads).1
  have hself : w.Copying (w.copyNamespaces (w.registry r).namespaces).2
      (w.copyNamespaces (w.registry r).namespaces).2 := ⟨hcopied.extends_world, rfl, Nat.le_refl _⟩
  have hnumber : (w.copyRegistry r).1 = w.registries.size :=
    congrArg Array.size hcopying.extends_world.registries
  cases hcore : w.findNamespace? r coreName with
  | some n =>
    obtain ⟨core, hcore', -⟩ := hcopied.find hcore
    have hlt : ∀ e ∈ (w.registry r).threads,
        e.2.current.id < w.cells.size ∧ e.2.switch.id < w.cells.size := by
      intro e he
      obtain ⟨hfound, hswitch⟩ := h.thread he
      have hswitch := Owns.table (hasNamespace_of_find hfound) (mem_of_lookup hswitch)
      exact ⟨h.var_lt (.thread he rfl), h.var_lt hswitch⟩
    obtain ⟨heach, hdistinct, hbinds, -⟩ :=
      hcopied.threadsCopied_copyThreads hself hcore' hlt hcopied.copies_distinct
    exact ⟨_, _, _, _, hcopied, hcopying, heach.imp fun _ _ ⟨ht, hcopy⟩ => ⟨ht, core, hcore', hcopy⟩,
      hdistinct, hbinds, hnumber, rfl⟩
  | none =>
    -- Without a core namespace no thread has used the registry.
    have hnone : (w.registry r).threads = [] := by
      refine List.eq_nil_iff_forall_not_mem.mpr fun e he => ?_
      have hfound := (h.thread he).found
      rw [hcore] at hfound
      cases hfound
    refine ⟨_, _, _, _, hcopied, hcopying, ?_, ?_, ?_, hnumber, rfl⟩ <;> rw [hnone]
    · exact .nil
    · exact .nil
    · exact ⟨Nat.le_refl _, fun _ _ => rfl, fun _ => rfl, fun _ => rfl⟩

end SmallLisp.World
