import SmallLisp.Proofs.Analysis.Quiet
import SmallLisp.Proofs.Session.Copies
import SmallLisp.Proofs.Session.Scoped

/-!
# Analysis has no effects of evaluation

A registry that has been made is in use, by the thread that made it or by those of the registry that it is a copy of
(`HasRegistry.inUse`). So in every reachable world an analysis that applies no function of a macro leaves everything
as it was, but for what it interns; and the scopes as well (`analysis_quiet`).
-/

namespace SmallLisp

open World

variable {here : Site} {w : World}

/-! ## Registries that have been made -/

/-- A thread that has been given a state has one, and keeps it when natives are entered. -/
theorem World.used_threadStateFrom (here : Site) (h : here.registry < w.registries.size) (first : ThreadState)
    (fs : List Native) :
    ∃ state, (fs.foldl (·.defineNative here.registry ·) (w.threadStateFrom here first).2).threadState? here =
      some state := by
  have hgiven : (w.threadStateFrom here first).2.threadState? here = some (w.threadStateFrom here first).1 := by
    unfold threadStateFrom
    split
    · assumption
    · unfold threadState?
      dsimp only
      rw [registry_modifyRegistry, if_pos ⟨rfl, h⟩]
      exact List.lookup_cons_self
  exact ⟨_, (keeps_defineNatives _ fs here.registry).state hgiven⟩

/-- The thread that makes a registry uses it. -/
theorem World.used_newRegistry (w : World) (thread : ThreadId) (limit : Nat) :
    ∃ state, (w.newRegistry thread limit).2.threadState? ⟨w.registries.size, thread⟩ = some state := by
  unfold newRegistry
  dsimp only
  refine used_threadStateFrom ⟨w.registries.size, thread⟩ ?_ _ _
  simp [internCore]

/-- A registry that has been made is in use. -/
theorem HasRegistry.inUse {r : RegistryId} (h : HasRegistry w r) : w.InUse r where
  toRegistered := reachable_registered h.reachable
  used := by
    induction h with
    | @create w h thread limit =>
      obtain ⟨state, hstate⟩ := w.used_newRegistry thread limit
      exact ⟨thread, state, hstate⟩
    | @copy w r h ih =>
      obtain ⟨t, state, hstate⟩ := ih
      have himage := ((reachable_registered h.reachable).image r).threads
      obtain ⟨copy, hcopy, -⟩ := forall₂_lookup (R := fun _ _ => True) (himage.imp fun _ _ he => ⟨he.1, trivial⟩) hstate
      exact ⟨t, copy, hcopy⟩
    | @after w r h e ih =>
      obtain ⟨t, state, hstate⟩ := ih
      exact ⟨t, state, ((w.keeps_after e).registry h.lt).threads t state hstate⟩

/-- An analysis that applies no function of a macro, whether it succeeds or fails, leaves the scopes as they were, and
the world as it was but for what it interns: no var that was there has another value or other metadata or is
replaced, there are the same namespaces, and each thread is in the namespace it was in. The new vars are unbound
ones of the namespace that the registry has under the name of the current one, which is the current one itself if the
registry has it, and their names are those of the definitions to which the analysis has come; there is one more var
only if the thread had not used the registry before, which is its own and stands in no table. -/
theorem analysis_quiet (h : HasRegistry w here.registry) (depth : Nat) (scopes : List Scope) (form : Value)
    (happlies : Analysis.AppliesNoMacro here depth form ⟨w, scopes⟩) :
    ∃ d, ((∃ e, Analysis.meaning here depth form ⟨w, scopes⟩ = .ok e d) ∨
        ∃ halt, Analysis.meaning here depth form ⟨w, scopes⟩ = .error halt d) ∧
      d.scopes = scopes ∧ w.Quiet d.world here (Analysis.definedNames here depth form ⟨w, scopes⟩) := by
  have hscopes := analysis_scoped (reachable_scoped h.reachable) here depth scopes form
  have hquiet := Quietly.meaning happlies (fun _ hq => hq) h.inUse
  generalize Analysis.meaning here depth form ⟨w, scopes⟩ = r at hscopes hquiet
  cases r with
  | ok e d => exact ⟨d, .inl ⟨e, rfl⟩, hscopes.1, hquiet⟩
  | error halt d => exact ⟨d, .inr ⟨halt, rfl⟩, hscopes, hquiet⟩

namespace Quietly

/-- A registry that another thread has made. -/
def made : World := World.empty.after (.create 0 10)

def site : Site := ⟨0, 7⟩

/-- A list that begins with a bare symbol. -/
def listOf (head : String) (args : List Value) : Value := .list 0 (.symbol (Symbol.bare head) :: args)

def name (n : String) : Value := .symbol (Symbol.bare n)

/-- The form `(do (def a 1) (quote (def b 2)) (fn [x] (defmacro c [] x)) (let [y (def d)] y) e (def f 3))`, in which
`e` stands for nothing. -/
def stopping : Value := listOf "do"
  [listOf "def" [name "a", .int 1],
    listOf "quote" [listOf "def" [name "b", .int 2]],
    listOf "fn" [.vector 0 [name "x"], listOf "defmacro" [name "c", .vector 0 [], name "x"]],
    listOf "let" [.vector 0 [name "y", listOf "def" [name "d"]], name "y"],
    name "e",
    listOf "def" [name "f", .int 3]]

end Quietly

open Quietly in
/-- The analysis comes to three definitions before it fails. -/
theorem analysis_quiet_stopping :
    HasRegistry made 0 ∧ Analysis.AppliesNoMacro site 8 stopping ⟨made, []⟩ ∧
      ∃ halt d, Analysis.meaning site 8 stopping ⟨made, []⟩ = .error halt d ∧ d.scopes = [] ∧
        made.Quiet d.world site [Symbol.bare "a", Symbol.bare "c", Symbol.bare "d"] := by
  have h : HasRegistry made site.registry := .create .empty 0 10
  have happlies : Analysis.AppliesNoMacro site 8 stopping ⟨made, []⟩ := by
    have hall : (Analysis.visited site 8 stopping ⟨made, []⟩).all (!Analysis.appliesMacro site ·) = true := by cbv
    exact fun p hp => by simpa using List.all_eq_true.mp hall p hp
  have hnames : Analysis.definedNames site 8 stopping ⟨made, []⟩ =
      [Symbol.bare "a", Symbol.bare "c", Symbol.bare "d"] := by cbv
  have hfails : Analysis.following (Analysis.meaning site 8 stopping) (fun _ d => [(stopping, d)]) ⟨made, []⟩ = [] := by
    cbv
  obtain ⟨d, ⟨e, hrun⟩ | ⟨halt, hrun⟩, hscopes, hquiet⟩ := analysis_quiet h 8 [] stopping happlies
  · unfold Analysis.following at hfails
    rw [hrun] at hfails
    cases hfails
  · rw [hnames] at hquiet
    exact ⟨h, happlies, halt, d, hrun, hscopes, hquiet⟩

/-- What `analysis_quiet` would say if the new vars were those of the current namespace always, and not only where
the registry has that namespace. -/
def EntersCurrentOnly : Prop :=
  ∀ (here : Site) (w : World) (depth : Nat) (scopes : List Scope) (form : Value) (d : Desk),
    HasRegistry w here.registry → Analysis.AppliesNoMacro here depth form ⟨w, scopes⟩ →
    ((∃ e, Analysis.meaning here depth form ⟨w, scopes⟩ = .ok e d) ∨
      ∃ halt, Analysis.meaning here depth form ⟨w, scopes⟩ = .error halt d) →
    ∀ n, d.world.table n = w.table n ∨
      ∃ current, (w.currentNamespace here).1 = .ok current ∧ current.id = n.id

namespace Quietly

/-- A registry in which a var holds the namespace `user`. -/
def holding : World := made.after (.eval ⟨0, 0⟩ 30 "(in-ns 'user) (def saved *ns*)")

/-- A thread of the copy of it. -/
def copySite : Site := ⟨1, 0⟩

/-- The world in which that thread has made the namespace in the var, which is not the copy's own, current. -/
def astray : World :=
  (holding.after (.copy 0)).after (.eval copySite 30 "(in-ns 'clojure.core) (def *ns* user/saved)")

/-- The form `(def x)`. -/
def definition : Value := listOf "def" [name "x"]

/-- The world after its analysis. -/
def strayed : World := astray.after (.analyze copySite 8 [] definition)

end Quietly

open Quietly in
/-- They are not: a thread of a copy whose current namespace is the `user` of the registry that has been copied enters
`x` in the `user` of the copy. -/
theorem not_entersCurrentOnly : ¬ EntersCurrentOnly := by
  intro h
  have hmade : HasRegistry astray 1 := by
    have hholding : HasRegistry holding 0 := .after (.create .empty 0 10) _
    have hcopy := hholding.copy
    have hsize : holding.registries.size = 1 := by cbv
    rw [hsize] at hcopy
    exact hcopy.after _
  have happlies : Analysis.AppliesNoMacro copySite 8 definition ⟨astray, []⟩ := by
    have hall : (Analysis.visited copySite 8 definition ⟨astray, []⟩).all (!Analysis.appliesMacro copySite ·) =
        true := by cbv
    exact fun p hp => by simpa using List.all_eq_true.mp hall p hp
  have hmeaning : Analysis.meaning copySite 8 definition ⟨astray, []⟩ =
      .ok (.define ⟨12, ⟨"user", "x"⟩⟩ none none) ⟨strayed, []⟩ := by cbv
  have hcurrent : (astray.currentNamespace copySite).1 = .ok ⟨1, "user"⟩ := by cbv
  -- The copy has its own `user` under the number 2.
  have hbefore : (astray.table ⟨2, "user"⟩).length = 1 := by cbv
  have hafter : (strayed.table ⟨2, "user"⟩).length = 2 := by cbv
  obtain hsame | ⟨n, hn, hid⟩ :=
    h copySite astray 8 [] definition _ hmade happlies (.inl ⟨_, hmeaning⟩) ⟨2, "user"⟩
  · dsimp only at hsame
    rw [hsame, hbefore] at hafter
    cases hafter
  · rw [hcurrent] at hn
    cases hn
    cases hid

end SmallLisp
