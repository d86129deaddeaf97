import SmallLisp.Proofs.Session.Lockstep
import SmallLisp.Proofs.World.Growth

/-!
# Worlds that know more keywords

A world can differ from another one only in what has been printed, and in keywords that the other one would
make in the same way if it were asked for them (`World.Informed`). Programs do not notice such a difference:
they go the same way in both worlds (`World.informed`).
-/

namespace SmallLisp

/-- The second registry, of this number, is the first one, but for keywords that the first one would make in
the same way. -/
structure Registry.Informed (r : RegistryId) (a b : Registry) : Prop where
  namespaces : b.namespaces = a.namespaces
  threads : b.threads = a.threads
  expansionLimit : b.expansionLimit = a.expansionLimit
  keywords : ∀ s, b.keywords.lookup s = a.keywords.lookup s ∨
    a.keywords.lookup s = none ∧ b.keywords.lookup s = some ⟨r, s, true⟩

namespace Registry.Informed

variable {r : RegistryId} {a b c : Registry}

theorem refl (r : RegistryId) (a : Registry) : Informed r a a := ⟨rfl, rfl, rfl, fun _ => .inl rfl⟩

theorem trans (hab : Informed r a b) (hbc : Informed r b c) : Informed r a c where
  namespaces := hbc.namespaces.trans hab.namespaces
  threads := hbc.threads.trans hab.threads
  expansionLimit := hbc.expansionLimit.trans hab.expansionLimit
  keywords s := by
    obtain hb | ⟨hb, hb'⟩ := hab.keywords s
    · rw [← hb]
      exact hbc.keywords s
    · -- What the second registry has learnt, the third one has too.
      obtain hc | ⟨hc, -⟩ := hbc.keywords s
      · exact .inr ⟨hb, hc.trans hb'⟩
      · rw [hb'] at hc
        cases hc

theorem addNamespace (h : Informed r a b) (n : Namespace) :
    Informed r (a.addNamespace n) (b.addNamespace n) :=
  ⟨congrArg ((n.name, n) :: ·) h.namespaces, h.threads, h.expansionLimit, h.keywords⟩

theorem addThread (h : Informed r a b) (t : ThreadId) (state : ThreadState) :
    Informed r (a.addThread t state) (b.addThread t state) :=
  ⟨h.namespaces, congrArg ((t, state) :: ·) h.threads, h.expansionLimit, h.keywords⟩

theorem addKeyword (h : Informed r a b) (k : Keyword) :
    Informed r (a.addKeyword k) (b.addKeyword k) where
  namespaces := h.namespaces
  threads := h.threads
  expansionLimit := h.expansionLimit
  keywords s := by
    unfold Registry.addKeyword
    rw [List.lookup_cons, List.lookup_cons]
    split
    · exact .inl rfl
    · exact h.keywords s

/-- A registry learns a keyword that it would have made in the same way. -/
theorem learn (a : Registry) {s : Symbol} (hnew : a.keywords.lookup s = none) :
    Informed r a (a.addKeyword ⟨r, s, true⟩) := by
  refine ⟨rfl, rfl, rfl, fun s' => ?_⟩
  unfold Registry.addKeyword
  rw [List.lookup_cons]
  split
  · rename_i heq
    rw [beq_iff_eq.mp heq]
    exact .inr ⟨hnew, rfl⟩
  · exact .inl rfl

/-- A registry catches up with one that knows the keyword already. -/
theorem catchUp (h : Informed r a b) {s : Symbol} (hb : b.keywords.lookup s = some ⟨r, s, true⟩) :
    Informed r (a.addKeyword ⟨r, s, true⟩) b := by
  refine ⟨h.namespaces, h.threads, h.expansionLimit, fun s' => ?_⟩
  unfold Registry.addKeyword
  rw [List.lookup_cons]
  split
  · rename_i heq
    rw [beq_iff_eq.mp heq]
    exact .inl hb
  · exact h.keywords s'

end Registry.Informed

namespace World

theorem modifyRegistry_id (w : World) (r : RegistryId) : w.modifyRegistry r id = w := by
  have hid : w.registries.modify r id = w.registries :=
    Array.ext (by simp) fun i _ _ => by simp [Array.getElem_modify]
  exact congrArg ({ w with registries := · }) hid

/-- The second world is the first one, but for what has been printed and for keywords that the first one
would make in the same way. -/
structure Informed (w u : World) : Prop where
  cells : u.cells = w.cells
  tables : u.tables = w.tables
  closures : u.closures = w.closures
  objects : u.objects = w.objects
  nextName : u.nextName = w.nextName
  size : u.registries.size = w.registries.size
  registry : ∀ r, (w.registry r).Informed r (u.registry r)

namespace Informed

variable {w u v : World}

theorem refl (w : World) : w.Informed w := ⟨rfl, rfl, rfl, rfl, rfl, rfl, fun r => .refl r _⟩

theorem trans (hu : w.Informed u) (hv : u.Informed v) : w.Informed v where
  cells := hv.cells.trans hu.cells
  tables := hv.tables.trans hu.tables
  closures := hv.closures.trans hu.closures
  objects := hv.objects.trans hu.objects
  nextName := hv.nextName.trans hu.nextName
  size := hv.size.trans hu.size
  registry r := (hu.registry r).trans (hv.registry r)

/-! ## What is looked at -/

variable (h : w.Informed u)
include h

theorem root (x : Var) : u.root x = w.root x := by
  unfold World.root World.cell
  rw [h.cells]

theorem metadata (x : Var) : u.metadata x = w.metadata x := by
  unfold World.metadata World.cell
  rw [h.cells]

theorem closure (f : Function) : u.closure f = w.closure f := by
  unfold World.closure
  rw [h.closures]

theorem findVarIn (n : Namespace) (s : Symbol) : u.findVarIn? n s = w.findVarIn? n s := by
  unfold findVarIn? table
  rw [h.tables]

theorem findNamespace (r : RegistryId) (name : String) :
    u.findNamespace? r name = w.findNamespace? r name := by
  unfold findNamespace?
  rw [(h.registry r).namespaces]

theorem threadState? (here : Site) : u.threadState? here = w.threadState? here := by
  unfold World.threadState?
  rw [(h.registry here.registry).threads]

/-! ## What is changed -/

theorem withCells (cells : Array Cell) :
    Informed { w with cells := cells } { u with cells := cells } :=
  { h with cells := rfl }

theorem withTables (tables : Array VarTable) :
    Informed { w with tables := tables } { u with tables := tables } :=
  { h with tables := rfl }

theorem withObjects (objects : Nat) :
    Informed { w with objects := objects } { u with objects := objects } :=
  { h with objects := rfl }

theorem print (text : String) : w.Informed (u.print text) := { h with }

theorem setRoot (x : Var) (value : Value) : (w.setRoot x value).Informed (u.setRoot x value) := by
  unfold World.setRoot
  rw [h.cells]
  exact h.withCells _

theorem setMetadata (x : Var) (metadata : Value) :
    (w.setMetadata x metadata).Informed (u.setMetadata x metadata) := by
  unfold World.setMetadata
  rw [h.cells]
  exact h.withCells _

/-- A registry may be changed in both worlds, if it stays informed. -/
theorem modifyRegistry {r : RegistryId} {f g : Registry → Registry}
    (hfg : (f (w.registry r)).Informed r (g (u.registry r))) :
    (w.modifyRegistry r f).Informed (u.modifyRegistry r g) := by
  refine { h with size := ?_, registry := fun q => ?_ }
  · unfold World.modifyRegistry
    simpa using h.size
  · rw [registry_modifyRegistry, registry_modifyRegistry, h.size]
    split
    · rename_i hq
      obtain ⟨rfl, -⟩ := hq
      exact hfg
    · exact h.registry q

theorem internKeyword (r : RegistryId) (s : Symbol) :
    (w.internKeyword r s).1 = (u.internKeyword r s).1 ∧
      (w.internKeyword r s).2.Informed (u.internKeyword r s).2 := by
  have hr := h.registry r
  unfold World.internKeyword
  obtain hsame | ⟨hw, hu⟩ := hr.keywords s
  · rw [hsame]
    split
    · exact ⟨rfl, h⟩
    · exact ⟨rfl, h.modifyRegistry (hr.addKeyword _)⟩
  · -- The second world has learnt the keyword before.
    rw [hw, hu]
    have hcaught := h.modifyRegistry (g := id) (hr.catchUp hu)
    rw [modifyRegistry_id] at hcaught
    exact ⟨rfl, hcaught⟩

theorem internNamespace (r : RegistryId) (name : String) :
    (w.internNamespace r name).1 = (u.internNamespace r name).1 ∧
      (w.internNamespace r name).2.Informed (u.internNamespace r name).2 := by
  unfold World.internNamespace
  rw [h.findNamespace, h.tables]
  split
  · exact ⟨rfl, h⟩
  · exact ⟨rfl, (h.withTables _).modifyRegistry ((h.registry r).addNamespace _)⟩

theorem internVarIn (n : Namespace) (s : Symbol) :
    (w.internVarIn n s).1 = (u.internVarIn n s).1 ∧
      (w.internVarIn n s).2.Informed (u.internVarIn n s).2 := by
  unfold World.internVarIn
  rw [h.findVarIn, h.cells, h.tables]
  split
  · exact ⟨rfl, h⟩
  · exact ⟨rfl, (h.withCells _).withTables _⟩

theorem internVar (r : RegistryId) (s : Symbol) :
    (w.internVar r s).1 = (u.internVar r s).1 ∧
      (w.internVar r s).2.Informed (u.internVar r s).2 := by
  unfold World.internVar
  rw [h.findNamespace]
  split
  · split
    · obtain ⟨hv, hr⟩ := h.internVarIn _ s
      exact ⟨congrArg Except.ok hv, hr⟩
    · exact ⟨rfl, h⟩
  · exact ⟨rfl, h⟩

theorem newPrivateVar (owner : Namespace) (name : Symbol) (root : Option Value) :
    (w.newPrivateVar owner name root).1 = (u.newPrivateVar owner name root).1 ∧
      (w.newPrivateVar owner name root).2.Informed (u.newPrivateVar owner name root).2 := by
  unfold World.newPrivateVar
  rw [h.cells]
  exact ⟨rfl, h.withCells _⟩

theorem defaultThreadState (r : RegistryId) :
    (w.defaultThreadState r).1 = (u.defaultThreadState r).1 ∧
      (w.defaultThreadState r).2.Informed (u.defaultThreadState r).2 := by
  obtain ⟨hcore, h⟩ := h.internNamespace r coreName
  unfold World.defaultThreadState internCore
  dsimp only
  rw [← hcore]
  generalize (w.internNamespace r coreName).1 = core
  obtain ⟨hcurrent, h⟩ := h.newPrivateVar core currentSymbol (some (.ns core))
  obtain ⟨hswitch, h⟩ := h.internVarIn core switchSymbol
  exact ⟨congr (congrArg ThreadState.mk hcurrent) hswitch, h⟩

theorem threadState (here : Site) :
    (w.threadState here).1 = (u.threadState here).1 ∧
      (w.threadState here).2.Informed (u.threadState here).2 := by
  unfold World.threadState
  rw [h.threadState?]
  split
  · exact ⟨rfl, h⟩
  · obtain ⟨hfirst, h⟩ := h.defaultThreadState here.registry
    dsimp only
    rw [← hfirst]
    exact ⟨rfl, h.modifyRegistry ((h.registry _).addThread _ _)⟩

end Informed

/-- Programs go the same way in an informed world. -/
def informed (here : Site) : Lockstep here where
  Rel := Informed
  strict := False
  reads := True
  mayUse _ := True
  root _ _ h v _ := ⟨(h.root v).symm, fun _ _ _ _ => trivial⟩
  metadata _ _ h v := (h.metadata v).symm
  closure _ _ h f _ := ⟨(h.closure f).symm, Closure.covered_free _⟩
  limit _ _ h := (h.registry here.registry).expansionLimit.symm
  findVarIn _ _ h n s _ := ⟨(h.findVarIn n s).symm, fun _ _ => trivial⟩
  findNamespace _ _ h name := ⟨(h.findNamespace _ name).symm, fun _ _ => trivial⟩
  newObject _ _ h := ⟨trivial, h.objects.symm, { h with objects := congrArg (· + 1) h.objects }⟩
  uniqueName stem _ _ h :=
    ⟨trivial, congrArg (stem ++ toString ·) h.nextName.symm,
      { h with nextName := congrArg (· + 1) h.nextName }⟩
  print _ _ _ h := { h with }
  internKeyword s _ _ h := ⟨trivial, h.internKeyword here.registry s⟩
  internNamespace name _ _ h := ⟨trivial, h.internNamespace here.registry name⟩
  internVar s _ _ h := ⟨fun _ _ => ⟨trivial, trivial⟩, h.internVar here.registry s⟩
  threadState _ _ h := ⟨⟨trivial, trivial⟩, h.threadState here⟩
  newFunction c _ _ _ h :=
    ⟨trivial, congrArg (Function.mk ·.size c.signature) h.closures.symm,
      { h with closures := congrArg (·.push c) h.closures }⟩
  setRoot v x _ _ _ _ h := h.setRoot v x
  setMetadata v x _ _ _ h := h.setMetadata v x

/-- The second world is the first one after a look at a text: objects have been made and keywords learnt. -/
def Glanced (w u : World) : Prop := w.Informed { u with objects := w.objects }

namespace Glanced

variable {w u v : World}

theorem refl (w : World) : w.Glanced w := Informed.refl w

theorem trans (hu : w.Glanced u) (hv : u.Glanced v) : w.Glanced v :=
  Informed.trans hu (Informed.withObjects hv w.objects)

theorem newObject (w : World) : w.Glanced w.newObject.2 := Informed.refl w

theorem internKeyword (w : World) (r : RegistryId) (s : Symbol) :
    w.Glanced (w.internKeyword r s).2 := by
  unfold World.internKeyword
  split
  · exact .refl w
  · rename_i hnew
    have hlearnt := (Informed.refl w).modifyRegistry (f := id) (Registry.Informed.learn _ hnew)
    rwa [modifyRegistry_id] at hlearnt

end Glanced

end World

end SmallLisp
