import SmallLisp.Proofs.Value.Objects
import SmallLisp.World.Copy
import SmallLisp.World.Create

/-!
# The objects of a world

A world `Consists` of the objects that have been made in it if it counts as many as there are, and all that its
vars and functions hold is among them. Interning, binding and copying make no objects, and keep this. An object is
made by taking a number for it, and is then the one of this number (`World.Consists.exists_add`).
-/

namespace SmallLisp

variable {os more : Objects}

/-! ## What expressions and functions hold -/

/-- The values that stand in the expression are among the objects. -/
inductive Expr.Among (os : Objects) : Expr → Prop
  | const {v : Value} (hv : v.Among os) : Among os (.const v)
  | root (v : Var) : Among os (.root v)
  | localName (s : Symbol) : Among os (.localName s)
  | define {v : Var} {value : Option Expr} {metadata : Option Value}
    (hvalue : ∀ e, value = some e → Among os e) (hmetadata : ∀ m, metadata = some m → m.Among os) :
    Among os (.define v value metadata)
  | branch {test yes : Expr} {no : Option Expr} (htest : Among os test) (hyes : Among os yes)
    (hno : ∀ e, no = some e → Among os e) : Among os (.branch test yes no)
  | sequence {es : List Expr} (hes : ∀ e ∈ es, Among os e) : Among os (.sequence es)
  | bind {bindings : List (Symbol × Expr)} {body : Expr} (hbindings : ∀ b ∈ bindings, Among os b.2)
    (hbody : Among os body) : Among os (.bind bindings body)
  | function {signature : Signature} {body : Expr} (hbody : Among os body) :
    Among os (.function signature body)
  | call {callee : Expr} {args : List Expr} (hcallee : Among os callee) (hargs : ∀ e ∈ args, Among os e) :
    Among os (.call callee args)
  | vector {items : List Expr} (hitems : ∀ e ∈ items, Among os e) : Among os (.vector items)
  | map {entries : List (Expr × Expr)} (hkeys : ∀ e ∈ entries, Among os e.1)
    (hvalues : ∀ e ∈ entries, Among os e.2) : Among os (.map entries)
  | theVar (v : Var) : Among os (.theVar v)

theorem Expr.Among.mono {e : Expr} (h : e.Among os) (hmore : os <+: more) : e.Among more := by
  induction h with
  | const hv => exact .const (hv.mono hmore)
  | root v => exact .root v
  | localName s => exact .localName s
  | define _ hmetadata ih => exact .define ih fun m hm => (hmetadata m hm).mono hmore
  | branch _ _ _ ihtest ihyes ihno => exact .branch ihtest ihyes ihno
  | sequence _ ih => exact .sequence ih
  | bind _ _ ihbindings ihbody => exact .bind ihbindings ihbody
  | function _ ih => exact .function ih
  | call _ _ ihcallee ihargs => exact .call ihcallee ihargs
  | vector _ ih => exact .vector ih
  | map _ _ ihkeys ihvalues => exact .map ihkeys ihvalues
  | theVar v => exact .theVar v

/-- The values of the local names are among the objects. -/
def Locals.Among (os : Objects) (locals : Locals) : Prop := ∀ l ∈ locals, l.2.Among os

theorem Locals.Among.mono {locals : Locals} (h : locals.Among os) (hmore : os <+: more) :
    locals.Among more :=
  fun l hl => (h l hl).mono hmore

/-- What a function holds is among the objects. -/
structure Closure.Among (os : Objects) (c : Closure) : Prop where
  body : c.body.Among os
  locals : c.locals.Among os

theorem Closure.Among.mono {c : Closure} (h : c.Among os) (hmore : os <+: more) : c.Among more :=
  ⟨h.body.mono hmore, h.locals.mono hmore⟩

/-- What a var holds is among the objects. -/
structure Cell.Among (os : Objects) (c : Cell) : Prop where
  root : ∀ v, c.root = some v → v.Among os
  metadata : ∀ v, c.metadata = some v → v.Among os

theorem Cell.Among.mono {c : Cell} (h : c.Among os) (hmore : os <+: more) : c.Among more :=
  ⟨fun v hv => (h.root v hv).mono hmore, fun v hv => (h.metadata v hv).mono hmore⟩

/-! ## Worlds -/

/-- These are the objects that have been made in the world, each map with different keys, and what the vars and the
functions of the world hold is among them. -/
structure World.Consists (os : Objects) (w : World) : Prop where
  objects : w.objects = os.length
  maps : ∀ id entries, .map id entries ∈ os → Value.DistinctKeys entries
  cells : ∀ c ∈ w.cells, c.Among os
  closures : ∀ c ∈ w.closures, c.Among os

namespace World

variable {w u : World}

theorem consists_empty : World.empty.Consists [] := ⟨rfl, nofun, nofun, nofun⟩

namespace Consists

/-- No objects are made, and vars and functions stay as they are. -/
theorem of_unchanged (h : w.Consists os) (hobjects : u.objects = w.objects) (hcells : u.cells = w.cells)
    (hclosures : u.closures = w.closures) : u.Consists os where
  objects := hobjects.trans h.objects
  maps := h.maps
  cells := hcells ▸ h.cells
  closures := hclosures ▸ h.closures

theorem cell (h : w.Consists os) (v : Var) : (w.cell v).Among os := by
  unfold World.cell
  cases hv : w.cells[v.id]? with
  | none => exact ⟨nofun, nofun⟩
  | some c => exact h.cells c (Array.mem_of_getElem? hv)

theorem root (h : w.Consists os) {v : Var} {x : Value} (hx : w.root v = some x) : x.Among os :=
  (h.cell v).root x hx

theorem metadata (h : w.Consists os) {v : Var} {x : Value} (hx : w.metadata v = some x) : x.Among os :=
  (h.cell v).metadata x hx

theorem closure (h : w.Consists os) (f : Function) : (w.closure f).Among os := by
  unfold World.closure
  cases hf : w.closures[f.id]? with
  | none => exact ⟨.const (Value.among_of_noObject rfl), nofun⟩
  | some c => exact h.closures c (Array.mem_of_getElem? hf)

/-- A number is taken for an object, which stands in its place and may hold what is among the objects before it. -/
theorem exists_add (h : w.Consists os) {a : Value}
    (ha : ∀ id entries, a = .map id entries → Value.DistinctKeys entries) :
    ∃ more, os <+: more ∧ w.newObject.2.Consists more ∧ more[w.newObject.1]? = some a := by
  have hmore : os <+: os ++ [a] := List.prefix_append ..
  refine ⟨os ++ [a], hmore, ⟨?_, ?_, ?_, ?_⟩, ?_⟩
  · rw [List.length_append, List.length_singleton, ← h.objects]
    rfl
  · intro id entries hmem
    obtain hmem | hmem := List.mem_append.mp hmem
    · exact h.maps id entries hmem
    · exact ha id entries (List.mem_singleton.mp hmem).symm
  · exact fun c hc => (h.cells c hc).mono hmore
  · exact fun c hc => (h.closures c hc).mono hmore
  · have hid : w.newObject.1 = os.length := h.objects
    rw [hid, List.getElem?_concat_length]

theorem newFunction (h : w.Consists os) {c : Closure} (hc : c.Among os) : (w.newFunction c).2.Consists os where
  objects := h.objects
  maps := h.maps
  cells := h.cells
  closures c' hc' := by
    obtain hc' | rfl := Array.mem_push.mp hc'
    · exact h.closures c' hc'
    · exact hc

/-- A change of what one var holds. -/
theorem modifyCell (h : w.Consists os) (i : Nat) {f : Cell → Cell} (hf : ∀ c, c.Among os → (f c).Among os) :
    ({ w with cells := w.cells.modify i f } : World).Consists os where
  objects := h.objects
  maps := h.maps
  cells c hc := by
    obtain ⟨j, hj, rfl⟩ := Array.mem_iff_getElem.mp hc
    rw [Array.getElem_modify]
    split
    · exact hf _ (h.cells _ (Array.getElem_mem _))
    · exact h.cells _ (Array.getElem_mem _)
  closures := h.closures

theorem setRoot (h : w.Consists os) (v : Var) {x : Value} (hx : x.Among os) : (w.setRoot v x).Consists os :=
  h.modifyCell v.id fun _ hc => ⟨fun _ hy => Option.some.inj hy ▸ hx, hc.metadata⟩

theorem setMetadata (h : w.Consists os) (v : Var) {x : Value} (hx : x.Among os) :
    (w.setMetadata v x).Consists os :=
  h.modifyCell v.id fun _ hc => ⟨hc.root, fun _ hy => Option.some.inj hy ▸ hx⟩

/-- Vars are added. -/
theorem addCells (h : w.Consists os) (hobjects : u.objects = w.objects)
    {added : Array Cell} (hcells : u.cells = w.cells ++ added) (hadded : ∀ c ∈ added, c.Among os)
    (hclosures : u.closures = w.closures) : u.Consists os where
  objects := hobjects.trans h.objects
  maps := h.maps
  cells c hc := by
    rw [hcells] at hc
    obtain hc | hc := Array.mem_append.mp hc
    · exact h.cells c hc
    · exact hadded c hc
  closures := hclosures ▸ h.closures

theorem modifyRegistry (h : w.Consists os) (r : RegistryId) (f : Registry → Registry) :
    (w.modifyRegistry r f).Consists os :=
  h.of_unchanged rfl rfl rfl

theorem uniqueName (h : w.Consists os) (stem : String) : (w.uniqueName stem).2.Consists os :=
  ⟨h.objects, h.maps, h.cells, h.closures⟩

theorem print (h : w.Consists os) (text : String) : (w.print text).Consists os := h.of_unchanged rfl rfl rfl

theorem internKeyword (h : w.Consists os) (r : RegistryId) (s : Symbol) :
    (w.internKeyword r s).2.Consists os := by
  unfold World.internKeyword
  split
  · exact h
  · exact h.modifyRegistry r _

theorem internNamespace (h : w.Consists os) (r : RegistryId) (name : String) :
    (w.internNamespace r name).2.Consists os := by
  unfold World.internNamespace
  split
  · exact h
  · exact h.of_unchanged rfl rfl rfl

theorem newPrivateVar (h : w.Consists os) (owner : Namespace) (name : Symbol) (root : Option Value)
    (hroot : ∀ x, root = some x → x.Among os) : (w.newPrivateVar owner name root).2.Consists os := by
  have hcells : (w.newPrivateVar owner name root).2.cells = w.cells ++ #[⟨owner, root, none⟩] :=
    Array.push_eq_append
  refine h.addCells rfl hcells (fun c hc => ?_) rfl
  obtain rfl := Array.mem_singleton.mp hc
  exact ⟨hroot, nofun⟩

theorem internVarIn (h : w.Consists os) (n : Namespace) (s : Symbol) : (w.internVarIn n s).2.Consists os := by
  unfold World.internVarIn
  split
  · exact h
  · exact (h.newPrivateVar n s none nofun).of_unchanged rfl rfl rfl

theorem internVar (h : w.Consists os) (r : RegistryId) (s : Symbol) : (w.internVar r s).2.Consists os := by
  unfold World.internVar
  split
  · split
    · exact h.internVarIn _ s
    · exact h
  · exact h

theorem threadStateFrom (h : w.Consists os) (here : Site) (first : ThreadState) :
    (w.threadStateFrom here first).2.Consists os := by
  unfold World.threadStateFrom
  split
  · exact h
  · exact h.modifyRegistry _ _

theorem defaultThreadState (h : w.Consists os) (r : RegistryId) :
    (w.defaultThreadState r).2.Consists os := by
  have hcore := h.internNamespace r coreName
  have hcurrent := hcore.newPrivateVar (w.internNamespace r coreName).1 currentSymbol
    (some (.ns (w.internNamespace r coreName).1)) fun _ hx =>
      Option.some.inj hx ▸ Value.among_of_noObject rfl
  exact hcurrent.internVarIn _ _

theorem threadState (h : w.Consists os) (here : Site) : (w.threadState here).2.Consists os := by
  unfold World.threadState
  split
  · exact h
  · exact (h.defaultThreadState here.registry).modifyRegistry _ _

theorem currentNamespace (h : w.Consists os) (here : Site) : (w.currentNamespace here).2.Consists os :=
  h.threadState here

theorem switchNamespace (h : w.Consists os) (here : Site) (name : String) :
    (w.switchNamespace here name).2.Consists os :=
  ((h.internNamespace _ name).threadState here).setRoot _ (Value.among_of_noObject rfl)

theorem qualify (h : w.Consists os) (here : Site) (s : Symbol) : (w.qualify here s).2.Consists os := by
  unfold World.qualify
  split
  · exact h
  · exact h.currentNamespace here

theorem findVar (h : w.Consists os) (here : Site) (s : Symbol) : (w.findVar here s).2.Consists os := by
  unfold World.findVar
  split
  · exact h
  · exact h.currentNamespace here

theorem readKeyword (h : w.Consists os) (here : Site) (s : Symbol) (auto : Bool) :
    (w.readKeyword here s auto).2.Consists os := by
  have hcurrent := h.currentNamespace here
  unfold World.readKeyword
  split
  · exact h.internKeyword _ s
  · split
    · exact h
    · split
      · rename_i heq
        rw [heq] at hcurrent
        exact hcurrent.internKeyword _ _
      · rename_i heq
        rw [heq] at hcurrent
        exact hcurrent

/-! ## Registries -/

theorem defineNative (h : w.Consists os) (r : RegistryId) (f : Native) : (w.defineNative r f).Consists os :=
  ((h.internNamespace r coreName).internVarIn _ _).setRoot _ (Value.among_of_noObject rfl)

theorem defineNatives (h : w.Consists os) (r : RegistryId) (fs : List Native) :
    (fs.foldl (·.defineNative r ·) w).Consists os :=
  List.foldlRecOn fs _ h fun _ h f _ => h.defineNative r f

theorem addStandardLibrary (h : w.Consists os) (r : RegistryId) : (w.addStandardLibrary r).Consists os :=
  h.defineNatives r _

theorem newRegistry (h : w.Consists os) (thread : ThreadId) (limit : Nat) :
    (w.newRegistry thread limit).2.Consists os := by
  have hpushed : ({ w with registries := w.registries.push ⟨[], [], [], limit⟩ } : World).Consists os :=
    h.of_unchanged rfl rfl rfl
  unfold World.newRegistry World.internCore
  dsimp only
  refine defineNatives (threadStateFrom (internVarIn (setRoot ?_ _ ?_) _ _) _ _) _ _
  · exact (hpushed.internNamespace _ _).internVarIn _ _
  · exact Value.among_of_noObject rfl

theorem copyNamespace (h : w.Consists os) (n : Namespace) : (w.copyNamespace n).2.Consists os := by
  refine h.addCells rfl rfl ?_ rfl
  intro c hc
  obtain ⟨⟨s, v⟩, -, rfl⟩ := List.mem_map.mp (List.mem_toArray.mp hc)
  exact ⟨(h.cell v).root, (h.cell v).metadata⟩

theorem copyNamespaces (h : w.Consists os) (namespaces : List (String × Namespace)) :
    (w.copyNamespaces namespaces).2.Consists os := by
  induction namespaces generalizing w with
  | nil => exact h
  | cons n rest ih => exact ih (h.copyNamespace n.2)

theorem copyThreadState (h : w.Consists os) (copies : List (String × Namespace)) (state : ThreadState) :
    (w.copyThreadState copies state).2.Consists os := by
  unfold World.copyThreadState
  dsimp only
  have hbound : ∀ {u : World} (v : Var) (n : Namespace), u.Consists os → (u.setRoot v (.ns n)).Consists os :=
    fun v n hu => hu.setRoot v (Value.among_of_noObject rfl)
  have hprivate : ∀ n s, (w.newPrivateVar n s none).2.Consists os := fun n s => h.newPrivateVar n s none nofun
  split <;> split
  · exact hbound _ _ h
  · exact hbound _ _ (hprivate _ _)
  · exact h
  · exact hprivate _ _

theorem copyThreads (h : w.Consists os) (copies : List (String × Namespace))
    (threads : List (ThreadId × ThreadState)) : (w.copyThreads copies threads).2.Consists os := by
  induction threads generalizing w with
  | nil => exact h
  | cons t rest ih => exact ih (h.copyThreadState copies t.2)

theorem copyRegistry (h : w.Consists os) (r : RegistryId) : (w.copyRegistry r).2.Consists os :=
  ((h.copyNamespaces _).copyThreads _ _).of_unchanged rfl rfl rfl

end Consists

end World

end SmallLisp
