import Mathlib
import SmallLisp.Proofs.Session.Permanence
import SmallLisp.Proofs.World.Interning

/-!
# What a program in one registry can change of another

In a reachable world no two registries share a namespace or a var (`reachable_apart`). A program gets hold of
the namespaces and vars of the registry that it runs in, of the functions that these hold, of all that the
bodies and the scopes of these functions refer to, and so on (`World.Reaches`), and besides only of what it
makes itself. So another registry stays as it is, whatever the outcome, but for the vars that functions
within this reach define (`evalText_isolated`).

A copy of a registry shares the functions of the registry, which define the vars of the registry still.
-/

namespace SmallLisp

variable {w w₀ u : World} {c d : RegistryId}

/-! ## Registries stay apart -/

namespace World.Apart

/-- Only the registries, the tables and the number of vars matter. -/
theorem of_same (h : w.Apart) (hc : u.cells.size = w.cells.size) (ht : u.tables = w.tables)
    (hr : u.registries = w.registries) : u.Apart := by
  have hregistry : ∀ q, u.registry q = w.registry q := by
    intro q
    unfold World.registry
    rw [hr]
  exact (World.Adds.of_same (r := 0) hc ht (fun q => by rw [hregistry])
    fun q => by rw [hregistry]).apart h

end World.Apart

/-- In a reachable world no two registries share a namespace or a var. -/
theorem reachable_apart (h : Reachable w) : w.Apart := (reachable_registered h).toApart

/-! ## The reach of programs -/

/-- What programs can get hold of in a registry. -/
inductive World.Reaches (w : World) (d : RegistryId) : Ref → Prop
  /-- A namespace of the registry. -/
  | ns {n : Namespace} (h : w.HasNamespace d n) : Reaches w d (.ns n)
  /-- A var of the registry, to read it. -/
  | var {v : Var} (h : w.Owns d v) : Reaches w d (.var v)
  /-- A var of the registry, to define it. -/
  | target {v : Var} (h : w.Owns d v) : Reaches w d (.target v)
  /-- A var of a namespace. -/
  | entry {n : Namespace} {s : Symbol} {v : Var} (h : Reaches w d (.ns n)) (hv : (s, v) ∈ w.table n) :
    Reaches w d (.var v)
  /-- What the root of a var refers to. -/
  | root {v : Var} {x : Value} {r : Ref} (h : Reaches w d (.var v)) (hx : w.root v = some x)
    (hr : r ∈ x.refs) : Reaches w d r
  /-- What the body of a function refers to. -/
  | body {f : Function} {r : Ref} (h : Reaches w d (.function f)) (hr : r ∈ (w.closure f).body.refs) :
    Reaches w d r
  /-- What the scope refers to that a function was made in. -/
  | locals {f : Function} {l : Symbol × Value} {r : Ref} (h : Reaches w d (.function f))
    (hl : l ∈ (w.closure f).locals) (hr : r ∈ l.2.refs) : Reaches w d r

/-- What the reference stands for has not been made yet. -/
def World.Lacks (w : World) : Ref → Prop
  | .function f => w.closures.size ≤ f.id
  | .var v => w.cells.size ≤ v.id
  | .ns n => w.tables.size ≤ n.id
  | .target v => w.cells.size ≤ v.id

/-- What a program can get hold of that begins in the world: what is within its reach, and what it
makes. -/
def World.MayUse (w : World) (d : RegistryId) (r : Ref) : Prop := w.Reaches d r ∨ w.Lacks r

/-- No function within the reach of programs in the registry defines the var. -/
def World.Guarded (w : World) (d : RegistryId) (v : Var) : Prop :=
  ∀ f t, w.Reaches d (.function f) → .target t ∈ (w.closure f).body.refs → t.id ≠ v.id

/-- A world that a program has come to in the registry `d`, from `w₀` on. -/
structure World.Confined (w₀ : World) (d : RegistryId) (w : World) : Prop where
  apart : w.Apart
  adds : w₀.Adds d w
  closures_le : w₀.closures.size ≤ w.closures.size
  registry : ∀ {q}, q ≠ d → w.registry q = w₀.registry q
  table : ∀ {q n}, q ≠ d → w₀.HasNamespace q n → w.table n = w₀.table n
  cell : ∀ {v : Var}, v.id < w₀.cells.size →
    (∀ t : Var, w₀.Reaches d (.target t) → t.id ≠ v.id) → w.cell v = w₀.cell v
  covered : ∀ {f}, w₀.MayUse d (.function f) → (w.closure f).Covered False (w₀.MayUse d)
  root : ∀ {v x}, w₀.MayUse d (.var v) → w.root v = some x → x.Within (w₀.MayUse d)
  entry : ∀ {n s v}, w₀.MayUse d (.ns n) → (s, v) ∈ w.table n → w₀.MayUse d (.var v)

namespace World.Confined

/-- What has not been made refers to nothing. -/
theorem closure_of_le {f : Function} (h : w.closures.size ≤ f.id) : w.closure f = default := by
  unfold World.closure
  rw [Array.getElem?_eq_none h]
  rfl

theorem covered_default {R : Ref → Prop} : (default : Closure).Covered False R :=
  ⟨⟨fun _ _ => False.elim, nofun⟩, nofun⟩

theorem start (h : w₀.Apart) (d : RegistryId) : w₀.Confined d w₀ := by
  constructor
  case apart => exact h
  case adds => exact .refl d w₀
  case closures_le => exact Nat.le_refl _
  case registry => exact fun _ => rfl
  case table => exact fun _ _ => rfl
  case cell => exact fun _ _ => rfl
  case covered =>
    rintro f (hf | hf)
    · exact ⟨⟨fun _ _ => False.elim, fun r hr => .inl (.body hf hr)⟩,
        fun l hl r hr => .inl (.locals hf hl hr)⟩
    · rw [closure_of_le hf]
      exact covered_default
  case root =>
    rintro v x (hv | hv) hx
    · exact fun r hr => .inl (.root hv hx hr)
    · rw [root_of_le hv] at hx
      cases hx
  case entry =>
    rintro n s v (hn | hn) hv
    · exact .inl (.entry hn hv)
    · rw [table_of_le hn] at hv
      cases hv

/-- A namespace of the registry may be used. -/
theorem mayUse_ns (h : w₀.Confined d w) {n : Namespace}
    (hn : w.HasNamespace d n ∨ w.tables.size ≤ n.id) : w₀.MayUse d (.ns n) := by
  obtain hn | hn := hn
  · obtain hn | ⟨-, hle, -⟩ := h.adds.namespaces hn
    · exact .inl (.ns hn)
    · exact .inr hle
  · exact .inr (Nat.le_trans h.adds.tables_le hn)

/-- A var of the registry may be read and defined. -/
theorem mayUse_var (h : w₀.Confined d w) {v : Var} (hv : w.Owns d v ∨ w.cells.size ≤ v.id) :
    w₀.MayUse d (.target v) ∧ w₀.MayUse d (.var v) := by
  obtain hv | hv := hv
  · obtain hv | ⟨-, hle, -⟩ := h.adds.owned hv
    · exact ⟨.inl (.target hv), .inl (.var hv)⟩
    · exact ⟨.inr hle, .inr hle⟩
  · have hle := Nat.le_trans h.adds.cells_le hv
    exact ⟨.inr hle, .inr hle⟩

theorem interns (h : w₀.Confined d w) (hu : w.Interns d u) : w₀.Confined d u := by
  constructor
  case apart => exact hu.adds.apart h.apart
  case adds => exact h.adds.trans hu.adds
  case closures_le => exact hu.closures ▸ h.closures_le
  case registry => exact fun hq => (hu.registry hq).trans (h.registry hq)
  case table =>
    intro q n hq hn
    have hn' : w.HasNamespace q n := by
      unfold HasNamespace
      rw [h.registry hq]
      exact hn
    exact (hu.table hq hn').trans (h.table hq hn)
  case cell =>
    intro v hv hsafe
    exact (hu.cell (Nat.lt_of_lt_of_le hv h.adds.cells_le)).trans (h.cell hv hsafe)
  case covered =>
    intro f hf
    have hclosure : u.closure f = w.closure f := by
      unfold World.closure
      rw [hu.closures]
    rw [hclosure]
    exact h.covered hf
  case root =>
    intro v x hv hx
    by_cases hlt : v.id < w.cells.size
    · exact h.root hv ((root_congr (hu.cell hlt)).symm.trans hx)
    · obtain ⟨n, rfl, hn⟩ := hu.root (Nat.le_of_not_lt hlt) hx
      exact Value.within_ns.mpr (h.mayUse_ns hn)
  case entry =>
    intro n s v hn hv
    obtain hv | hv := hu.entry hv
    · exact h.entry hn hv
    · exact (h.mayUse_var (.inr hv)).2

theorem newFunction (h : w₀.Confined d w) {c : Closure} (hc : c.Covered False (w₀.MayUse d)) :
    w₀.Confined d (w.newFunction c).2 := by
  refine { h with apart := ?apart, adds := ?adds, closures_le := ?closures_le, covered := ?covered }
  case apart => exact h.apart.of_same rfl rfl rfl
  case adds => exact h.adds.trans (.of_same rfl rfl (fun _ => rfl) fun _ => rfl)
  case closures_le => exact Nat.le_trans h.closures_le (by simp [World.newFunction])
  case covered =>
    intro f hf
    have hcov := h.covered hf
    unfold World.closure World.newFunction at *
    dsimp only
    rw [Array.getElem?_push]
    split
    · exact hc
    · exact hcov

/-- A change of a var that may be defined, which leaves its root within bounds. -/
theorem changeVar (h : w₀.Confined d w) {v : Var} (hv : w₀.MayUse d (.target v))
    {f : Cell → Cell}
    (hf : ∀ c x, (f c).root = some x → x.Within (w₀.MayUse d) ∨ c.root = some x) :
    w₀.Confined d { w with cells := w.cells.modify v.id f } := by
  have hadds : w.Adds d { w with cells := w.cells.modify v.id f } :=
    .of_same (by simp) rfl (fun _ => rfl) fun _ => rfl
  refine { h with apart := hadds.apart h.apart, adds := h.adds.trans hadds, cell := ?cell, root := ?root }
  case cell =>
    intro v' hv' hsafe
    have hne : v.id ≠ v'.id := by
      obtain hv | hv := hv
      · exact hsafe v hv
      · exact Nat.ne_of_gt (Nat.lt_of_lt_of_le hv' hv)
    rw [← h.cell hv' hsafe]
    unfold World.cell
    dsimp only
    rw [Array.getElem?_modify, if_neg hne]
  case root =>
    intro v' x hv' hx
    unfold World.root World.cell at hx
    dsimp only at hx
    rw [Array.getElem?_modify] at hx
    split at hx
    · cases hcell : w.cells[v'.id]? with
      | none =>
        rw [hcell] at hx
        cases hx
      | some cell =>
        rw [hcell] at hx
        obtain hx | hx := hf cell x hx
        · exact hx
        · refine h.root hv' (x := x) ?_
          unfold World.root World.cell
          rw [hcell]
          exact hx
    · exact h.root hv' hx

/-- Programs stay confined. -/
def invariant (w₀ : World) (here : Site) : Invariant here where
  Holds := w₀.Confined here.registry
  strict := False
  mayUse := w₀.MayUse here.registry
  root _ h _ hv _ hx := h.root hv hx
  covered _ h _ hf := h.covered hf
  findVarIn _ h _ _ hn _ hv := h.entry hn (mem_of_lookup hv)
  findNamespace _ h _ _ hn := h.mayUse_ns (.inl (hasNamespace_of_find hn))
  newObject _ h := h.interns
    (.of_same (.of_same rfl rfl (fun _ => rfl) fun _ => rfl) (fun _ => rfl) rfl (fun _ => rfl) rfl)
  uniqueName _ h _ := h.interns
    (.of_same (.of_same rfl rfl (fun _ => rfl) fun _ => rfl) (fun _ => rfl) rfl (fun _ => rfl) rfl)
  print _ h _ := h.interns
    (.of_same (.of_same rfl rfl (fun _ => rfl) fun _ => rfl) (fun _ => rfl) rfl (fun _ => rfl) rfl)
  internKeyword w h s := h.interns (w.interns_internKeyword _ s)
  internNamespace w h name :=
    ⟨h.interns (w.interns_internNamespace _ name), h.mayUse_ns (w.owned_internNamespace _ name)⟩
  internVar _ h s :=
    ⟨h.interns (interns_internVar h.apart _ s), fun _ hv => h.mayUse_var (owns_internVar hv)⟩
  threadState w h :=
    ⟨h.interns (interns_threadState h.apart here), h.mayUse_var (w.owns_threadState here)⟩
  newFunction _ h _ hc := ⟨h.newFunction hc, .inr h.closures_le⟩
  setRoot _ h _ _ hv hx := h.changeVar hv fun _ _ hy => .inl (Option.some.inj hy ▸ hx)
  setMetadata _ h _ _ hv := h.changeVar hv fun _ _ hy => .inr hy

end World.Confined

/-! ## Isolation -/

/-- A var of another registry that is guarded is not defined. -/
theorem World.Guarded.target_ne (h : w.Apart) (hc : c ≠ d) {v : Var} (hv : w.Owns c v)
    (hg : w.Guarded d v) {t : Var} (ht : w.Reaches d (.target t)) : t.id ≠ v.id := by
  cases ht with
  | target ht => exact fun heq => hc (h.var_eq hv ht heq.symm)
  | body hf hr => exact hg _ t hf hr
  | root _ _ hr => exact (Value.target_notMem_refs _ _ hr).elim
  | locals _ _ hr => exact (Value.target_notMem_refs _ _ hr).elim

/-- Whatever the outcome of a text that is evaluated in one registry, another registry has the same
namespaces, keywords and states of threads as before, the same vars in its tables, and the same contents of
each of its vars, unless a function that the text can get hold of defines that var. -/
theorem evalText_isolated (h : Reachable w) (here : Site) (hc : c ≠ here.registry) (depth : Nat)
    (text : String) :
    ((Session.evalText here depth text).after w).registry c = w.registry c ∧
    (∀ n, w.HasNamespace c n →
      ((Session.evalText here depth text).after w).table n = w.table n) ∧
    ∀ v, w.Owns c v → w.Guarded here.registry v →
      ((Session.evalText here depth text).after w).cell v = w.cell v := by
  have hw := reachable_apart h
  have hafter := (World.Confined.invariant w here).after
    (Lockstep.evalText trivial (Nat.le_refl depth) text) (.start hw here.registry)
  refine ⟨hafter.registry hc, fun n hn => hafter.table hc hn, fun v hv hg => ?_⟩
  exact hafter.cell (hw.var_lt hv) fun t ht => hg.target_ne hw hc hv ht

namespace Isolation

/-- A registry in which `x` is 1, and a copy of it. -/
def plainWorld : World :=
  ((World.empty.after (.create 0 10)).after (.eval ⟨0, 0⟩ 30 "(def x 1)")).after (.copy 0)

/-- A registry in which `x` is 1 and a function `f` makes it 2. -/
def sharingWorld : World :=
  (World.empty.after (.create 0 10)).after
    (.eval ⟨0, 0⟩ 30 "(def x 1) (def f (fn [] (def x 2)))")

/-- The var `x` of the registry. -/
def x : Var := ⟨5, coreSymbol "x"⟩

end Isolation

open Isolation in
/-- A definition of `x` in a copy leaves the tables of the registry as they were. -/
theorem evalText_isolated_copy :
    Reachable plainWorld ∧ (0 : RegistryId) ≠ 1 ∧
      ((Session.evalText ⟨1, 0⟩ 30 "(def x 2)").after plainWorld).registry 0 =
        plainWorld.registry 0 := by
  have h : Reachable plainWorld := ((Reachable.empty.after _).after _).after _
  exact ⟨h, by decide, (evalText_isolated h ⟨1, 0⟩ (by decide) 30 "(def x 2)").1⟩

/-- What `evalText_isolated` would say of all vars, guarded or not, for a copy of a registry: that a text
evaluated in the copy leaves the vars of the registry as they are. -/
def CopiesAreIsolated : Prop :=
  ∀ (w : World) (r : RegistryId) (thread : ThreadId) (depth : Nat) (text : String) (v : Var),
    Reachable w → (w.copyRegistry r).2.Owns r v →
      ((Session.evalText ⟨(w.copyRegistry r).1, thread⟩ depth text).after (w.copyRegistry r).2).cell v =
        (w.copyRegistry r).2.cell v

open Isolation in
/-- It does not hold of all vars: a function that is made in a registry defines the vars of that registry,
and so it does when it is called in a copy. Here `(f)`, called in the copy, makes `x` 2 in the
registry. -/
theorem not_copiesAreIsolated : ¬ CopiesAreIsolated := by
  intro h
  have howns : (sharingWorld.copyRegistry 0).2.Owns 0 x := by
    refine .table (n := ⟨0, coreName⟩) (s := coreSymbol "x") ⟨coreName, ?_⟩ ?_
    · exact mem_of_lookup (by cbv)
    · exact mem_of_lookup (by cbv)
  have hsame := h sharingWorld 0 0 30 "(f)" x ((Reachable.empty.after _).after _) howns
  have hbefore : ((sharingWorld.copyRegistry 0).2.cell x).root = some (.int 1) := by cbv
  have hafter : (((Session.evalText ⟨(sharingWorld.copyRegistry 0).1, 0⟩ 30 "(f)").after
      (sharingWorld.copyRegistry 0).2).cell x).root = some (.int 2) := by cbv
  rw [hsame, hbefore] at hafter
  cases hafter

end SmallLisp
