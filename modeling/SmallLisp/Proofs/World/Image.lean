import SmallLisp.Proofs.World.Copies
import SmallLisp.Proofs.World.Functions

/-!
# A registry and its copy

A copy of a registry is an image of it (`World.RegistryImage`): what stands under a name in the one has
its image under that name in the other. All namespaces and vars of the image are new, and so is each var
that holds the current namespace of a thread; only the keywords are the same. What was there before is
left as it was.
-/

namespace SmallLisp.World

variable {w u x y : World} {r c : RegistryId}

/-! ## Images -/

/-- The var stands in the namespace of the name, under the symbol. -/
def StandsAt (w : World) (r : RegistryId) (name : String) (s : Symbol) (v : Var) : Prop :=
  ∃ n, w.findNamespace? r name = some n ∧ w.findVarIn? n s = some v

/-- The var stands in no table, and no state of a thread but that of `t` in the registry holds it. -/
structure Private (w : World) (r : RegistryId) (t : ThreadId) (v : Var) : Prop where
  table : ∀ {q n s v'}, w.HasNamespace q n → (s, v') ∈ w.table n → v'.id ≠ v.id
  current : ∀ {q t' state}, (t', state) ∈ (w.registry q).threads → state.current.id = v.id → q = r ∧ t' = t
  switch : ∀ {q t' state}, (t', state) ∈ (w.registry q).threads → state.switch.id ≠ v.id

/-- The second var is an image of the first one, owned by the namespace. The root is that of the first
one, unless a thread has its current namespace there. -/
structure VarImage (w y : World) (r : RegistryId) (m : Namespace) (v v' : Var) : Prop where
  new : w.NewVar y v'
  name : v'.name = v.name
  owner : (y.cell v').owner = m
  metadata : y.metadata v' = w.metadata v
  root : (∀ e ∈ (w.registry r).threads, e.2.current ≠ v) → y.root v' = w.root v

/-- The second namespace is an image of the first one: it has images of all its vars, and no other vars. -/
structure NamespaceImage (w y : World) (r : RegistryId) (n m : Namespace) : Prop where
  new : w.NewNamespace y m
  name : m.name = n.name
  vars : List.Forall₂ (fun e e' => e'.1 = e.1 ∧ w.VarImage y r m e.2 e'.2) (w.table n) (y.table m)
  distinct : ((y.table m).map (·.2.id)).Nodup

/-- The namespace that a thread is in after copying: the one of the same name as that it is in, or the core
namespace if it is in none, or if there is none of that name. -/
def imageOfCurrent (w y : World) (c : RegistryId) (state : ThreadState) : Option Namespace :=
  ((state.currentIn w).toOption.bind fun n => y.findNamespace? c n.name).or (y.findNamespace? c coreName)

/-- The second state is an image of the first one, for the thread. Entered vars have their images in it. A
var that is not entered has a new one in its place, which is the thread's own. -/
structure ThreadImage (w y : World) (r c : RegistryId) (t : ThreadId) (state state' : ThreadState) :
    Prop where
  entered : ∀ {name s}, w.StandsAt r name s state.current → y.StandsAt c name s state'.current
  alone : (∀ name s, ¬ w.StandsAt r name s state.current) →
    w.NewVar y state'.current ∧ y.Private c t state'.current
  switch : ∀ {name s}, w.StandsAt r name s state.switch → y.StandsAt c name s state'.switch
  owner : y.findNamespace? c coreName = some (y.cell state'.current).owner
  root : ∃ m, w.imageOfCurrent y c state = some m ∧ y.root state'.current = some (.ns m)

/-- The registry `c` of the second world is an image of the registry `r` of the first one, and what was
there in the first world is as before. -/
structure RegistryImage (w y : World) (r c : RegistryId) : Prop where
  namespaces : List.Forall₂ (fun e e' => e'.1 = e.1 ∧ w.NamespaceImage y r e.2 e'.2) (w.registry r).namespaces
    (y.registry c).namespaces
  distinct : ((y.registry c).namespaces.map (·.2.id)).Nodup
  keywords : (y.registry c).keywords = (w.registry r).keywords
  expansionLimit : (y.registry c).expansionLimit = (w.registry r).expansionLimit
  threads : List.Forall₂ (fun e e' => e'.1 = e.1 ∧ w.ThreadImage y r c e.1 e.2 e'.2) (w.registry r).threads
    (y.registry c).threads
  currents : ((y.registry c).threads.map (·.2.current.id)).Nodup
  registry : ∀ {q}, q ≠ c → y.registry q = w.registry q
  table : ∀ {n : Namespace}, n.id < w.tables.size → y.table n = w.table n
  cell : ∀ {v : Var}, v.id < w.cells.size → y.cell v = w.cell v
  closures : y.closures = w.closures

/-! ## Copying makes an image -/

namespace CopySteps

variable {copies : List (String × Namespace)} {states : List (ThreadId × ThreadState)}

theorem registry_copy (h : w.CopySteps u x r copies states) (q : RegistryId) :
    (w.copyRegistry r).2.registry q =
      if q = w.registries.size then { w.registry r with namespaces := copies, threads := states }
      else w.registry q := by
  have hsame := h.copying.extends_world.registries
  rw [h.result, registry_push, hsame]
  unfold registry
  rw [hsame]

theorem table_copy (h : w.CopySteps u x r copies states) (n : Namespace) :
    (w.copyRegistry r).2.table n = u.table n := by
  rw [h.result]
  unfold table
  rw [← h.copying.tables]

theorem cell_copy (h : w.CopySteps u x r copies states) (v : Var) :
    (w.copyRegistry r).2.cell v = x.cell v := by
  rw [h.result]
  rfl

theorem findNamespace_copy (h : w.CopySteps u x r copies states) (name : String) :
    (w.copyRegistry r).2.findNamespace? w.registries.size name = copies.lookup name := by
  unfold findNamespace?
  rw [h.registry_copy, if_pos rfl]

theorem findVarIn_copy (h : w.CopySteps u x r copies states) (n : Namespace) (s : Symbol) :
    (w.copyRegistry r).2.findVarIn? n s = u.findVarIn? n s := by
  unfold findVarIn?
  rw [h.table_copy]

theorem newVar_copy (h : w.CopySteps u x r copies states) {v : Var} (hle : w.cells.size ≤ v.id)
    (hlt : v.id < x.cells.size) : w.NewVar (w.copyRegistry r).2 v := by
  refine ⟨hle, ?_⟩
  rw [h.result]
  exact hlt

/-- The copy of a var that stands in the registry stands in the same place. -/
theorem standsAt_copy (h : w.CopySteps u x r copies states) {name : String} {s : Symbol} {v : Var}
    (hv : w.StandsAt r name s v) :
    ∃ v', u.copyOfVar? copies v = some v' ∧ (w.copyRegistry r).2.StandsAt w.registries.size name s v' := by
  obtain ⟨n, hn, hv⟩ := hv
  obtain ⟨copy, v', hcopy, -, hv', -, hsome⟩ := h.copied.copyOfVar_of_find hn hv
  exact ⟨v', hsome, copy, (h.findNamespace_copy name).trans hcopy, (h.findVarIn_copy copy s).trans hv'⟩

/-- Only the vars that hold current namespaces have been bound. -/
theorem root_copy (h : w.CopySteps u x r copies states) {n copy : Namespace} {s : Symbol} {v v' : Var}
    (hn : w.HasNamespace r n) (hv : (s, v) ∈ w.table n) (hcopy : u.copyOfVar? copies v = some v')
    (hvar : w.VarCopy u copy v v') (hnone : ∀ e ∈ (w.registry r).threads, e.2.current ≠ v) :
    (w.copyRegistry r).2.root v' = w.root v := by
  have hregistered := h.copied.registered
  have hbound : ¬ ∃ e ∈ states, e.2.current.id = v'.id := by
    rintro ⟨e', he', heq⟩
    obtain ⟨e, he, -, core, -, hstate⟩ := exists_of_forall₂ h.each he'
    obtain hcurrent | ⟨-, hfresh, -⟩ := hstate.current
    · have howner := (hregistered.var hn hv).owner
      refine hnone e he (h.copied.copyOfVar_inj (hregistered.var_lt (.thread he rfl))
        (hregistered.var_lt (.table hn hv)) (hasNamespace_of_find (hregistered.thread he).found)
        (howner.symm ▸ hn) hcurrent hcopy heq)
    · exact Nat.not_le_of_lt hvar.new.2 (heq ▸ hfresh.1)
  unfold root
  rw [h.cell_copy, h.binds.cell hvar.new.2 hbound, hvar.cell]

theorem varImage (h : w.CopySteps u x r copies states) {n copy : Namespace} {s : Symbol} {v v' : Var}
    (hn : w.HasNamespace r n) (hv : (s, v) ∈ w.table n) (hcopy : u.copyOfVar? copies v = some v')
    (hvar : w.VarCopy u copy v v') : w.VarImage (w.copyRegistry r).2 r copy v v' where
  new := h.newVar_copy hvar.new.1 (Nat.lt_of_lt_of_le hvar.new.2 h.binds.cells_le)
  name := hvar.name
  owner := by rw [h.cell_copy, h.binds.owner hvar.new.2, hvar.cell]
  metadata := by
    unfold metadata
    rw [h.cell_copy, h.binds.metadata hvar.new.2, hvar.cell]
  root := h.root_copy hn hv hcopy hvar

theorem namespaceImage (h : w.CopySteps u x r copies states) {name : String} {n copy : Namespace}
    (hn : w.findNamespace? r name = some n) (hlookup : copies.lookup name = some copy)
    (hcopy : w.NamespaceCopy u n copy) : w.NamespaceImage (w.copyRegistry r).2 r n copy := by
  have hhas := hasNamespace_of_find hn
  have hkeys := h.copied.registered.var_keys hhas
  have hnew := h.copying.newNamespace hcopy.new
  refine ⟨⟨hnew.le, ?_, fun s v hv => ?_⟩, hcopy.name, ?_, ?_⟩
  · rw [h.result]
    exact hnew.lt
  · rw [h.table_copy] at hv
    have hv' := hcopy.new.vars s v hv
    exact h.newVar_copy hv'.1 (Nat.lt_of_lt_of_le hv'.2 h.binds.cells_le)
  · rw [h.table_copy]
    refine List.forall₂_iff_zip.mpr ⟨hcopy.vars.length_eq, fun {e e'} hzip => ?_⟩
    obtain ⟨he, he'⟩ := List.of_mem_zip hzip
    obtain ⟨hkey, hvar⟩ := List.forall₂_zip hcopy.vars hzip
    obtain ⟨copy', v', hlookup', -, hv', -, hsome⟩ := h.copied.copyOfVar_of_find hn (lookup_of_mem hkeys he)
    obtain rfl := Option.some.inj (hlookup.symm.trans hlookup')
    have hkeys' : ((u.table copy).map Prod.fst).Nodup := (forall₂_keys hcopy.vars).symm ▸ hkeys
    have hfound : u.findVarIn? copy e.1 = some e'.2 := lookup_of_mem hkeys' (hkey ▸ he')
    obtain rfl := Option.some.inj (hv'.symm.trans hfound)
    exact ⟨hkey, h.varImage hhas he hsome hvar⟩
  · rw [h.table_copy]
    exact hcopy.distinct

/-- What a thread gets in place of a var that is not entered is its own. -/
theorem private_copy (h : w.CopySteps u x r copies states) {t : ThreadId} {state : ThreadState}
    (hstate : (t, state) ∈ states) (hfresh : u.NewVar x state.current) :
    (w.copyRegistry r).2.Private w.registries.size t state.current := by
  have hregistered := h.copied.registered
  have hle := Nat.le_trans h.copied.extends_world.cells_le hfresh.1
  -- All tables have been made before the var.
  have htable : ∀ {q n s v'}, (w.copyRegistry r).2.HasNamespace q n → (s, v') ∈ (w.copyRegistry r).2.table n →
      v'.id ≠ state.current.id := by
    rintro q n s v' ⟨name, hn⟩ hv
    rw [h.registry_copy] at hn
    rw [h.table_copy] at hv
    refine Nat.ne_of_lt (Nat.lt_of_lt_of_le ?_ hfresh.1)
    split at hn
    · exact ((h.copied.newNamespace hn).vars s v' hv).2
    · rw [h.copied.extends_world.table (hregistered.namespace_lt ⟨name, hn⟩)] at hv
      exact Nat.lt_of_lt_of_le (hregistered.var_lt (.table ⟨name, hn⟩ hv)) h.copied.extends_world.cells_le
  refine ⟨htable, fun {q t' state'} hmem heq => ?_, fun {q t' state'} hmem => ?_⟩
  · rw [h.registry_copy] at hmem
    split at hmem
    · rename_i hq
      have hsame := List.inj_on_of_nodup_map h.distinct hmem hstate heq
      exact ⟨hq, congrArg Prod.fst hsame⟩
    · exact absurd heq (Nat.ne_of_lt (Nat.lt_of_lt_of_le (hregistered.var_lt (.thread hmem rfl)) hle))
  · rw [h.registry_copy] at hmem
    split at hmem
    · obtain ⟨e, he, -, core, -, himage⟩ := exists_of_forall₂ h.each hmem
      have hthread := hregistered.thread he
      obtain ⟨v', hsome, n, hn, hv⟩ := h.standsAt_copy ⟨_, hthread.found, hthread.switch⟩
      have hswitch : state'.switch = v' := by rw [himage.switch, hsome, Option.getD_some]
      exact hswitch ▸ htable (hasNamespace_of_find hn) (mem_of_lookup hv)
    · have hthread := hregistered.thread hmem
      have hlt := hregistered.var_lt
        (.table (hasNamespace_of_find hthread.found) (mem_of_lookup hthread.switch))
      exact Nat.ne_of_lt (Nat.lt_of_lt_of_le hlt hle)

theorem threadImage (h : w.CopySteps u x r copies states) {t : ThreadId} {state state' : ThreadState}
    {core : Namespace} (hmem : (t, state) ∈ (w.registry r).threads) (hmem' : (t, state') ∈ states)
    (hcore : copies.lookup coreName = some core) (hcopy : u.ThreadCopy x copies core state state') :
    w.ThreadImage (w.copyRegistry r).2 r w.registries.size t state state' := by
  have hregistered := h.copied.registered
  have hthread := hregistered.thread hmem
  have hlt := hregistered.var_lt (.thread hmem rfl)
  constructor
  case entered =>
    intro name s hstands
    obtain ⟨v', hsome, hstands'⟩ := h.standsAt_copy hstands
    obtain hcurrent | ⟨hnone, -⟩ := hcopy.current
    · exact Option.some.inj (hsome.symm.trans hcurrent) ▸ hstands'
    · rw [hsome] at hnone
      cases hnone
  case alone =>
    intro hnone
    obtain hcurrent | ⟨-, hfresh, -⟩ := hcopy.current
    · have hfound := h.copied.find_of_copyOfVar hlt (hasNamespace_of_find hthread.found) hcurrent
      exact absurd ⟨_, hthread.found, hfound⟩ (hnone coreName _)
    · exact ⟨h.newVar_copy (Nat.le_trans h.copied.extends_world.cells_le hfresh.1) hfresh.2,
        h.private_copy hmem' hfresh⟩
  case switch =>
    intro name s hstands
    obtain ⟨v', hsome, hstands'⟩ := h.standsAt_copy hstands
    rw [hcopy.switch, hsome]
    exact hstands'
  case owner =>
    rw [h.findNamespace_copy, h.cell_copy, hcore]
    obtain hcurrent | ⟨-, -, howner⟩ := hcopy.current
    · have hfound := h.copied.find_of_copyOfVar hlt (hasNamespace_of_find hthread.found) hcurrent
      obtain ⟨copy, v', hlookup, -, -, hvar, hsome⟩ := h.copied.copyOfVar_of_find hthread.found hfound
      obtain rfl := Option.some.inj (hlookup.symm.trans hcore)
      obtain rfl := Option.some.inj (hsome.symm.trans hcurrent)
      rw [h.binds.owner hvar.new.2, hvar.cell]
    · rw [howner]
  case root =>
    refine ⟨u.copyTarget copies core state, ?_, (root_congr (h.cell_copy _)).trans hcopy.root⟩
    have hcurrent : state.currentIn u = state.currentIn w := by
      unfold ThreadState.currentIn root
      rw [h.copied.extends_world.cell hlt]
    unfold imageOfCurrent copyTarget
    rw [hcurrent, h.findNamespace_copy, hcore]
    cases state.currentIn w with
    | error e => rfl
    | ok n =>
      show (((w.copyRegistry r).2.findNamespace? w.registries.size n.name).or (some core)) =
        some ((copies.lookup n.name).getD core)
      rw [h.findNamespace_copy]
      cases copies.lookup n.name <;> rfl

end CopySteps

/-- A copy is an image. -/
theorem Registered.image (h : w.Registered) (r : RegistryId) :
    w.RegistryImage (w.copyRegistry r).2 r w.registries.size := by
  obtain ⟨u, x, copies, states, hsteps⟩ := h.copySteps r
  have hregistry := hsteps.registry_copy w.registries.size
  rw [if_pos rfl] at hregistry
  have hextends := hsteps.copied.extends_world
  constructor
  case namespaces =>
    rw [hregistry]
    refine List.forall₂_iff_zip.mpr ⟨hsteps.copied.namespaces.length_eq, fun {e e'} hzip => ?_⟩
    obtain ⟨hkey, hcopy⟩ := List.forall₂_zip hsteps.copied.namespaces hzip
    have hkeys := (h.named r).namespace_keys
    have hkeys' : (copies.map Prod.fst).Nodup := (forall₂_keys hsteps.copied.namespaces).symm ▸ hkeys
    obtain ⟨he, he'⟩ := List.of_mem_zip hzip
    exact ⟨hkey, hsteps.namespaceImage (lookup_of_mem hkeys he) (lookup_of_mem hkeys' (hkey ▸ he')) hcopy⟩
  case distinct =>
    rw [hregistry]
    exact hsteps.copied.distinct
  case keywords => rw [hregistry]
  case expansionLimit => rw [hregistry]
  case threads =>
    rw [hregistry]
    refine List.forall₂_iff_zip.mpr ⟨hsteps.each.length_eq, fun {e e'} hzip => ?_⟩
    obtain ⟨hkey, core, hcore, hcopy⟩ := List.forall₂_zip hsteps.each hzip
    obtain ⟨he, he'⟩ := List.of_mem_zip hzip
    exact ⟨hkey, hsteps.threadImage he (hkey ▸ he') hcore hcopy⟩
  case currents =>
    rw [hregistry]
    exact hsteps.distinct
  case registry =>
    intro q hq
    rw [hsteps.registry_copy, if_neg hq]
  case table =>
    intro n hn
    rw [hsteps.table_copy, hextends.table hn]
  case cell =>
    intro v hv
    rw [hsteps.cell_copy, hsteps.copying.extends_world.cell hv]
  case closures => exact w.closures_copyRegistry r

/-! ## Images are registered -/

/-- The var of an image is entered as the one that it is an image of. -/
theorem NamespaceImage.entered {n m : Namespace} (h : w.NamespaceImage y r n m) (hw : w.Registered)
    (hn : w.HasNamespace r n) {s : Symbol} {v : Var} (hv : (s, v) ∈ y.table m) : y.Entered m s v := by
  obtain ⟨⟨s', v₀⟩, hv₀, hkey, hvar⟩ := exists_of_forall₂ h.vars hv
  obtain rfl : s = s' := hkey
  have hentered := hw.var hn hv₀
  exact ⟨hvar.name.trans hentered.name, hentered.ns.trans h.name.symm, hvar.owner⟩

namespace RegistryImage

variable (h : w.RegistryImage y r c)
include h

/-- A namespace of the image is the image of a namespace. -/
theorem exists_namespace {name : String} {m : Namespace} (hm : (name, m) ∈ (y.registry c).namespaces) :
    ∃ n, (name, n) ∈ (w.registry r).namespaces ∧ w.NamespaceImage y r n m := by
  obtain ⟨⟨name', n⟩, hn, hkey, himage⟩ := exists_of_forall₂ h.namespaces hm
  obtain rfl : name = name' := hkey
  exact ⟨n, hn, himage⟩

/-- A namespace is of the image, or it was there before. -/
theorem hasNamespace_cases {q : RegistryId} {m : Namespace} (hm : y.HasNamespace q m) :
    q = c ∧ (∃ n, w.HasNamespace r n ∧ w.NamespaceImage y r n m) ∨ q ≠ c ∧ w.HasNamespace q m := by
  obtain ⟨name, hmem⟩ := hm
  by_cases hq : q = c
  · obtain ⟨n, hn, himage⟩ := h.exists_namespace (hq ▸ hmem)
    exact .inl ⟨hq, n, ⟨name, hn⟩, himage⟩
  · exact .inr ⟨hq, name, h.registry hq ▸ hmem⟩

theorem named (hw : w.Registered) (q : RegistryId) : (y.registry q).Named := by
  by_cases hq : q = c
  · rw [hq]
    have hnamed := hw.named r
    constructor
    · intro name m hm
      obtain ⟨n, hn, himage⟩ := h.exists_namespace hm
      exact himage.name.trans (hnamed.namespace_name hn)
    · exact forall₂_keys h.namespaces ▸ hnamed.namespace_keys
    · exact h.keywords ▸ hnamed.keyword_name
    · exact h.keywords ▸ hnamed.keyword_keys
    · exact forall₂_keys h.threads ▸ hnamed.thread_keys
  · exact h.registry hq ▸ hw.named q

theorem same_id (hw : w.Registered) {q p : RegistryId} {n m : Namespace} (hn : y.HasNamespace q n)
    (hm : y.HasNamespace p m) (heq : n.id = m.id) : n = m := by
  obtain ⟨rfl, n₀, -, hnew⟩ | ⟨-, hn₀⟩ := h.hasNamespace_cases hn <;>
    obtain ⟨rfl, m₀, -, hnew'⟩ | ⟨-, hm₀⟩ := h.hasNamespace_cases hm
  · obtain ⟨name, hn⟩ := hn
    obtain ⟨name', hm⟩ := hm
    exact congrArg Prod.snd (List.inj_on_of_nodup_map h.distinct hn hm heq)
  · exact absurd heq.symm (Nat.ne_of_lt (Nat.lt_of_lt_of_le (hw.namespace_lt hm₀) hnew.new.le))
  · exact absurd heq (Nat.ne_of_lt (Nat.lt_of_lt_of_le (hw.namespace_lt hn₀) hnew'.new.le))
  · exact hw.same_id hn₀ hm₀ heq

theorem registered (hw : w.Registered) (ha : y.Apart) (hk : w.Keeps y) : y.Registered where
  toApart := ha
  named := h.named hw
  same_id := h.same_id hw
  var {q m s v} hm hv := by
    obtain ⟨-, n, hn, himage⟩ | ⟨-, hm⟩ := h.hasNamespace_cases hm
    · exact himage.entered hw hn hv
    · exact hw.var_keeps hk hm (h.table (hw.namespace_lt hm) ▸ hv)
  var_keys {q m} hm := by
    obtain ⟨-, n, hn, himage⟩ | ⟨-, hm⟩ := h.hasNamespace_cases hm
    · exact forall₂_keys himage.vars ▸ hw.var_keys hn
    · exact h.table (hw.namespace_lt hm) ▸ hw.var_keys hm
  same_var {q m s s' v v'} hm hv hv' heq := by
    obtain ⟨-, n, -, himage⟩ | ⟨-, hm⟩ := h.hasNamespace_cases hm
    · exact congrArg Prod.fst (List.inj_on_of_nodup_map himage.distinct hv hv' heq)
    · rw [h.table (hw.namespace_lt hm)] at hv hv'
      exact hw.same_var hm hv hv' heq
  thread {q t state} hmem := by
    by_cases hq : q = c
    · subst hq
      obtain ⟨e, he, -, himage⟩ := exists_of_forall₂ h.threads hmem
      have hthread := hw.thread he
      obtain ⟨core, hcore, hswitch⟩ := himage.switch ⟨_, hthread.found, hthread.switch⟩
      obtain rfl := Option.some.inj (hcore.symm.trans himage.owner)
      exact ⟨himage.owner, hswitch⟩
    · exact hw.thread_keeps hk (h.registry hq ▸ hmem)
  same_current {q t t' state state'} hmem hmem' heq := by
    by_cases hq : q = c
    · subst hq
      exact congrArg Prod.fst (List.inj_on_of_nodup_map h.currents hmem hmem' heq)
    · rw [h.registry hq] at hmem hmem'
      exact hw.same_current hmem hmem' heq

end RegistryImage

theorem Registered.copyRegistry (h : w.Registered) (r : RegistryId) : (w.copyRegistry r).2.Registered :=
  (h.image r).registered h ((adds_copyRegistry h.toApart r).apart h.toApart) (w.keeps_copyRegistry r)

theorem Registered.addStandardLibrary (h : w.Registered) (r : RegistryId) :
    (w.addStandardLibrary r).Registered :=
  h.defineNatives _ r

end SmallLisp.World
