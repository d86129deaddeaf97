import SmallLisp.Proofs.World.Copies
import SmallLisp.Proofs.World.Interning

/-!
# How a registry is made

A registry is made in steps: it gets its core namespace, there the var of the current namespace, bound to the core
namespace, then the state of the thread that makes it, and at last its natives. From the second step on it is `Begun`,
and each further step keeps that. So in the end everything stands under its own name (`Registered.newRegistry`), and
only the making thread has a state (`Registered.begun_newRegistry`).
-/

namespace SmallLisp.World

variable {w u x : World} {r : RegistryId}

/-- The registry `r` is being made: it has its core namespace, in it the var of the current namespace, bound to
that namespace, and in all registries before it threads are where they were. -/
structure Begun (w u : World) (r : RegistryId) (n : Namespace) (v : Var) : Prop where
  registered : u.Registered
  core : u.findNamespace? r coreName = some n
  current : u.findVarIn? n currentSymbol = some v
  root : u.root v = some (.ns n)
  registry : ∀ q, q ≠ r → u.registry q = w.registry q
  others : ∀ q, q ≠ r → ∀ t state, (t, state) ∈ (w.registry q).threads →
    u.root state.current = w.root state.current

namespace Begun

variable {n : Namespace} {v : Var}

theorem name_eq (h : w.Begun u r n v) : n.name = coreName :=
  (h.registered.named r).namespace_name (mem_of_lookup h.core)

/-- What is done to vars of the registry that is being made is no concern of the others. -/
theorem of_spared (h : w.Begun u r n v) (hx : x.Registered) (hk : u.Keeps x)
    (hregistry : ∀ q, q ≠ r → x.registry q = u.registry q) (hroot : x.root v = u.root v)
    (hothers : ∀ q, q ≠ r → ∀ t state, (t, state) ∈ (u.registry q).threads →
      x.root state.current = u.root state.current) : w.Begun x r n v where
  registered := hx
  core := hk.find h.core
  current := hk.var h.current
  root := hroot.trans h.root
  registry q hq := (hregistry q hq).trans (h.registry q hq)
  others q hq t state hmem := (hothers q hq t state (h.registry q hq ▸ hmem)).trans (h.others q hq t state hmem)

/-- A var is interned in the core namespace. -/
theorem internVarIn (h : w.Begun u r n v) {s : Symbol} (hs : s.ns = coreName) :
    w.Begun (u.internVarIn n s).2 r n v := by
  have hn := hasNamespace_of_find h.core
  have hinterns := u.interns_internVarIn r (h.registered.only hn) s
  refine h.of_spared (h.registered.internVarIn_of_has hn (hs.trans h.name_eq.symm)) (u.keeps_internVarIn n s)
    (fun q _ => u.registry_internVarIn q n s) ?_ fun q _ t state hmem => ?_
  · exact root_congr (hinterns.cell (h.registered.var_lt (.table hn (mem_of_lookup h.current))))
  · exact root_congr (hinterns.cell (h.registered.var_lt (.thread hmem rfl)))

/-- Another var of the core namespace is bound. -/
theorem setRoot (h : w.Begun u r n v) {s : Symbol} {v' : Var} (hv : u.findVarIn? n s = some v')
    (hs : s ≠ currentSymbol) (y : Value) : w.Begun (u.setRoot v' y) r n v := by
  have hn := hasNamespace_of_find h.core
  refine h.of_spared (h.registered.setRoot v' y) (u.keeps_setRoot v' y) (fun _ _ => rfl) ?_
    fun q hq t state hmem => ?_
  · unfold World.root
    rw [cell_setRoot fun heq => hs (h.registered.same_var hn (mem_of_lookup hv) (mem_of_lookup h.current) heq)]
  · unfold World.root
    have hne : v'.id ≠ state.current.id := fun heq =>
      hq (h.registered.var_eq (.table hn (mem_of_lookup hv)) (.thread hmem rfl) heq).symm
    rw [cell_setRoot hne]

theorem defineNative (h : w.Begun u r n v) {f : Native} (hf : coreSymbol f.name ≠ currentSymbol) :
    w.Begun (u.defineNative r f) r n v ∧
      ((u.defineNative r f).registry r).threads = (u.registry r).threads := by
  have hlt := h.registered.namespace_lt (hasNamespace_of_find h.core)
  unfold World.defineNative internCore
  rw [u.internNamespace_of_find r h.core]
  refine ⟨(h.internVarIn rfl).setRoot (find_internVarIn hlt _) hf _, ?_⟩
  show ((u.internVarIn n (coreSymbol f.name)).2.registry r).threads = _
  rw [registry_internVarIn]

theorem defineNatives (h : w.Begun u r n v) {fs : List Native}
    (hfs : ∀ f ∈ fs, coreSymbol f.name ≠ currentSymbol) :
    w.Begun (fs.foldl (·.defineNative r ·) u) r n v ∧
      ((fs.foldl (·.defineNative r ·) u).registry r).threads = (u.registry r).threads := by
  induction fs generalizing u with
  | nil => exact ⟨h, rfl⟩
  | cons f fs ih =>
    obtain ⟨hf, hfs⟩ := List.forall_mem_cons.mp hfs
    obtain ⟨hmade, hthreads⟩ := h.defineNative hf
    obtain ⟨hrest, hthreads'⟩ := ih hmade hfs
    exact ⟨hrest, hthreads'.trans hthreads⟩

/-- The making thread gets its state. -/
theorem threadStateFrom (h : w.Begun u r n v) {switch : Var}
    (hswitch : u.findVarIn? n switchSymbol = some switch) (hnone : (u.registry r).threads = []) (t : ThreadId) :
    w.Begun (u.threadStateFrom ⟨r, t⟩ ⟨v, switch⟩).2 r n v ∧
      ((u.threadStateFrom ⟨r, t⟩ ⟨v, switch⟩).2.registry r).threads = [(t, ⟨v, switch⟩)] := by
  have hn := hasNamespace_of_find h.core
  have hown : u.Owns r v := .table hn (mem_of_lookup h.current)
  have howner := (h.registered.var hn (mem_of_lookup h.current)).owner
  have hfirst : u.CoreState r ⟨v, switch⟩ := ⟨h.core.trans (congrArg some howner.symm), howner.symm ▸ hswitch⟩
  have hregistered := h.registered.threadStateFrom ⟨r, t⟩ hown hfirst hnone
  have hkeeps := u.keeps_threadStateFrom ⟨r, t⟩ ⟨v, switch⟩
  have hnew : u.threadState? ⟨r, t⟩ = none := by
    unfold threadState?
    rw [hnone]
    rfl
  unfold World.threadStateFrom at hregistered hkeeps ⊢
  rw [hnew] at hregistered hkeeps ⊢
  refine ⟨h.of_spared hregistered hkeeps (fun q hq => registry_modifyRegistry_of_ne u hq _) rfl
    fun _ _ _ _ _ => rfl, ?_⟩
  dsimp only
  rw [registry_modifyRegistry, if_pos ⟨rfl, lt_of_find h.core⟩]
  show (t, _) :: (u.registry r).threads = _
  rw [hnone]

end Begun

/-- A registry that holds nothing gets its core namespace and the var of the current namespace. -/
theorem Registered.begun (h : u.Registered) (hr : r < u.registries.size)
    (hregistry : ∀ q, q ≠ r → u.registry q = w.registry q) (hroot : ∀ v, u.root v = w.root v) :
    w.Begun (((u.internCore r).2.internVarIn (u.internCore r).1 currentSymbol).2.setRoot
      ((u.internCore r).2.internVarIn (u.internCore r).1 currentSymbol).1 (.ns (u.internCore r).1)) r
      (u.internCore r).1 ((u.internCore r).2.internVarIn (u.internCore r).1 currentSymbol).1 := by
  have hcore : (u.internCore r).2.Registered := h.internNamespace r coreName
  have hname : (u.internCore r).1.name = coreName := h.name_internNamespace r coreName
  have hfound : (u.internCore r).2.findNamespace? r coreName = some (u.internCore r).1 :=
    find_internNamespace u hr coreName
  have hinterns : u.Interns r (u.internCore r).2 := u.interns_internNamespace r coreName
  generalize (u.internCore r).1 = n at *
  generalize (u.internCore r).2 = core at *
  have hn := hasNamespace_of_find hfound
  have hmade := hcore.internVarIn_of_has hn (s := currentSymbol) hname.symm
  have hinterns := hinterns.trans (core.interns_internVarIn r (hcore.only hn) currentSymbol)
  have hkeeps := core.keeps_internVarIn n currentSymbol
  have hcurrent := find_internVarIn (hcore.namespace_lt hn) currentSymbol
  have hfound := hkeeps.find hfound
  generalize (core.internVarIn n currentSymbol).1 = v at *
  generalize (core.internVarIn n currentSymbol).2 = made at *
  have hown : made.Owns r v := .table (hasNamespace_of_find hfound) (mem_of_lookup hcurrent)
  refine ⟨hmade.setRoot v _, hfound, hcurrent, root_setRoot_of_lt (hmade.var_lt hown) _,
    fun q hq => (hinterns.registry hq).trans (hregistry q hq), fun q hq t state hmem => ?_⟩
  -- The var of another registry is another one, so binding the new var spares it.
  have hmem' : (t, state) ∈ (u.registry q).threads := hregistry q hq ▸ hmem
  have hmem'' : (t, state) ∈ (made.registry q).threads := hinterns.registry hq ▸ hmem'
  have hcell : made.root state.current = u.root state.current :=
    root_congr (hinterns.cell (h.var_lt (.thread hmem' rfl)))
  rw [← hroot, ← hcell]
  exact root_congr (cell_setRoot (fun heq => hq (hmade.var_eq hown (.thread hmem'' rfl) heq).symm) _)

/-- A new registry has its core namespace, and only the making thread has a state. -/
theorem Registered.begun_newRegistry (h : w.Registered) (thread : ThreadId) (limit : Nat) :
    ∃ n v switch, w.Begun (w.newRegistry thread limit).2 w.registries.size n v ∧
      ((w.newRegistry thread limit).2.registry w.registries.size).threads = [(thread, ⟨v, switch⟩)] := by
  have hpush := h.push limit
  have hlt : w.registries.size <
      ({ w with registries := w.registries.push ⟨[], [], [], limit⟩ } : World).registries.size := by
    simp
  have hregistry : ∀ q, q ≠ w.registries.size →
      ({ w with registries := w.registries.push ⟨[], [], [], limit⟩ } : World).registry q = w.registry q :=
    fun q hq => by rw [registry_push, if_neg hq]
  have hnone : (({ w with registries := w.registries.push ⟨[], [], [], limit⟩ } : World).registry
      w.registries.size).threads = [] := by
    rw [registry_push, if_pos rfl]
  have hbegun := hpush.begun hlt hregistry fun _ => rfl
  -- The steps are taken one after the other: no thread has a state until the maker gets one.
  unfold World.newRegistry
  dsimp only
  generalize ({ w with registries := w.registries.push ⟨[], [], [], limit⟩ } : World) = u at *
  generalize w.registries.size = r at *
  rw [← u.threads_internNamespace r r coreName] at hnone
  change ((u.internCore r).2.registry r).threads = [] at hnone
  generalize u.internCore r = core at *
  obtain ⟨n, core⟩ := core
  dsimp only at *
  rw [← registry_internVarIn core r n currentSymbol] at hnone
  generalize core.internVarIn n currentSymbol = made at *
  obtain ⟨current, made⟩ := made
  dsimp only at *
  change ((made.setRoot current (.ns n)).registry r).threads = [] at hnone
  generalize made.setRoot current (.ns n) = bound at *
  have hswitch := find_internVarIn (hbegun.registered.namespace_lt (hasNamespace_of_find hbegun.core))
    switchSymbol
  have hlast := hbegun.internVarIn (s := switchSymbol) rfl
  rw [← registry_internVarIn bound r n switchSymbol] at hnone
  generalize bound.internVarIn n switchSymbol = last at *
  obtain ⟨hstate, hthreads⟩ := hlast.threadStateFrom hswitch hnone thread
  have hnatives : ∀ f ∈ Native.core, coreSymbol f.name ≠ currentSymbol := by decide
  obtain ⟨hdone, hsame⟩ := hstate.defineNatives hnatives
  exact ⟨n, current, last.1, hdone, hsame.trans hthreads⟩

/-- Everything stands under its own name when a registry has been made. -/
theorem Registered.newRegistry (h : w.Registered) (thread : ThreadId) (limit : Nat) :
    (w.newRegistry thread limit).2.Registered := by
  obtain ⟨n, v, switch, hbegun, -⟩ := h.begun_newRegistry thread limit
  exact hbegun.registered

end SmallLisp.World
