import Mathlib
import SmallLisp.Proofs.Session.Reachable
import SmallLisp.Proofs.World.Creation
import SmallLisp.Proofs.World.Image

/-!
# Names and what they stand for

In every reachable world each namespace, var and keyword stands under its own name
(`reachable_registered`), and whatever happens afterwards it stands there still
(`World.keeps_afterAll`). So a name that is interned again stands for the same thing
(`interned_for_good`), and keywords of a registry are equal only if they are the same.
-/

namespace SmallLisp

variable {w u : World} {r : RegistryId}

theorem World.apart_empty : World.empty.Apart := by
  have noNamespace : ∀ {r n}, ¬ World.empty.HasNamespace r n := by
    rintro r n ⟨name, hmem⟩
    cases hmem
  have noVar : ∀ {r v}, ¬ World.empty.Owns r v := by
    rintro r v (⟨hn, -⟩ | ⟨ht, -⟩)
    · exact noNamespace hn
    · cases ht
  exact ⟨fun h => (noNamespace h).elim, fun h => (noNamespace h).elim, fun h => (noVar h).elim,
    fun h => (noVar h).elim⟩

theorem World.registered_empty : World.empty.Registered where
  toApart := World.apart_empty
  named _ := .empty _
  same_id := by
    rintro r q n m ⟨name, hmem⟩
    cases hmem
  var := by
    rintro r n s v ⟨name, hmem⟩
    cases hmem
  var_keys := by
    rintro r n ⟨name, hmem⟩
    cases hmem
  same_var := by
    rintro r n s s' v v' ⟨name, hmem⟩
    cases hmem
  thread hmem := by cases hmem
  same_current hmem := by cases hmem

/-- In a reachable world everything stands under its own name. -/
theorem reachable_registered (h : Reachable w) : w.Registered :=
  Kept.reachable World.Registered.kept World.registered_empty
    (fun hw thread limit => hw.newRegistry thread limit) (fun hw r => hw.addStandardLibrary r)
    (fun hw r => hw.copyRegistry r) h

/-- Keywords are equal only if they are the same, where the same name gives the same keyword. -/
theorem Keyword.equal_eq_identical {k k' : Keyword} (h : k.sym = k'.sym → k = k') :
    (Value.keyword k).equal (.keyword k') = (Value.keyword k).identical (.keyword k') := by
  unfold Value.equal Value.identical
  dsimp only
  by_cases heq : k.sym = k'.sym
  · simp [h heq]
  · have hne : k ≠ k' := fun hk => heq (congrArg Keyword.sym hk)
    rw [beq_false_of_ne heq, beq_false_of_ne hne, Bool.false_and]

namespace World

/-- The world after some events, one after the other. -/
def afterAll (w : World) (events : List Event) : World := events.foldl World.after w

theorem reachable_afterAll (h : Reachable w) (events : List Event) : Reachable (w.afterAll events) := by
  induction events generalizing w with
  | nil => exact h
  | cons e events ih => exact ih (h.after e)

/-- An event removes and replaces nothing. -/
theorem keeps_after (w : World) (e : Event) : w.Keeps (w.after e) :=
  Kept.after w.keeping (fun h thread limit => h.trans (keeps_newRegistry _ thread limit))
    (fun h r => h.trans (keeps_defineNatives _ _ r)) (fun h r => h.trans (keeps_copyRegistry _ r)) (.refl w) e

theorem keeps_afterAll (w : World) (events : List Event) : w.Keeps (w.afterAll events) := by
  induction events generalizing w with
  | nil => exact .refl w
  | cons e events ih => exact (w.keeps_after e).trans (ih _)

/-! ## Interning again -/

/-- What has been interned stands for its name in a world that keeps it. -/
theorem Keeps.internNamespace (hr : r < w.registries.size) {name : String}
    (h : (w.internNamespace r name).2.Keeps u) :
    (u.internNamespace r name).1 = (w.internNamespace r name).1 := by
  have hfound := h.find (find_internNamespace w hr name)
  rw [u.internNamespace_of_find r hfound]

theorem Keeps.internVar (hw : w.Registered) {s : Symbol} {v : Var} (hv : (w.internVar r s).1 = .ok v)
    (h : (w.internVar r s).2.Keeps u) : (u.internVar r s).1 = .ok v := by
  obtain ⟨fault, heq⟩ | ⟨n, hs, hn⟩ := w.internVar_cases r s
  · rw [heq] at hv
    cases hv
  · rw [w.internVar_of_find r hs hn] at hv h
    have hkeeps := (w.keeps_internVarIn n s).trans h
    have hn' := hkeeps.find hn
    have hv' := h.var (find_internVarIn (hw.namespace_lt (hasNamespace_of_find hn)) s)
    rw [u.internVar_of_find r hs hn', u.internVarIn_of_find hv']
    exact hv

theorem Keeps.internKeyword (hr : r < w.registries.size) {s : Symbol}
    (h : (w.internKeyword r s).2.Keeps u) : (u.internKeyword r s).1 = (w.internKeyword r s).1 := by
  have hr' : r < (w.internKeyword r s).2.registries.size :=
    Nat.lt_of_lt_of_le hr (w.keeps_internKeyword r s).registries_le
  have hfound := (h.registry hr').keywords _ _ (w.lookup_internKeyword r hr s)
  rw [u.internKeyword_of_lookup r hfound]

/-- Keywords of a registry are equal only if they are the same. -/
theorem Registered.keywords_equal (h : w.Registered) {s s' : Symbol} {k k' : Keyword}
    (hk : (w.registry r).keywords.lookup s = some k) (hk' : (w.registry r).keywords.lookup s' = some k') :
    (Value.keyword k).equal (.keyword k') = (Value.keyword k).identical (.keyword k') := by
  refine Keyword.equal_eq_identical fun heq => ?_
  rw [((h.named r).keyword_name (mem_of_lookup hk)).1, ((h.named r).keyword_name (mem_of_lookup hk')).1] at heq
  exact Option.some.inj (hk.symm.trans (heq ▸ hk'))

/-- What is interned in the registry is what is interned there under the same name after the events. A
keyword that is interned after them is equal to one interned before them only if it is the same, and so it
is with any two keywords that have been entered by then, in whatever way. -/
structure InternsForGood (w : World) (r : RegistryId) (events : List Event) : Prop where
  ns : ∀ name, (((w.internNamespace r name).2.afterAll events).internNamespace r name).1 =
    (w.internNamespace r name).1
  var : ∀ s v, (w.internVar r s).1 = .ok v → (((w.internVar r s).2.afterAll events).internVar r s).1 = .ok v
  keyword : ∀ s, (((w.internKeyword r s).2.afterAll events).internKeyword r s).1 = (w.internKeyword r s).1
  equal : ∀ s s', (Value.keyword (w.internKeyword r s).1).equal
      (.keyword (((w.internKeyword r s).2.afterAll events).internKeyword r s').1) =
    (Value.keyword (w.internKeyword r s).1).identical
      (.keyword (((w.internKeyword r s).2.afterAll events).internKeyword r s').1)
  entered : ∀ s s' k k', ((w.afterAll events).registry r).keywords.lookup s = some k →
    ((w.afterAll events).registry r).keywords.lookup s' = some k' →
    (Value.keyword k).equal (.keyword k') = (Value.keyword k).identical (.keyword k')

theorem internsForGood (h : Reachable w) (hr : r < w.registries.size) (events : List Event) :
    w.InternsForGood r events where
  ns name := Keeps.internNamespace hr (keeps_afterAll _ events)
  var s v hv := Keeps.internVar (reachable_registered h) hv (keeps_afterAll _ events)
  keyword s := Keeps.internKeyword hr (keeps_afterAll _ events)
  equal s s' := by
    have hmade : Reachable (w.internKeyword r s).2 := h.after (.internKeyword r s)
    have hkeeps := keeps_afterAll (w.internKeyword r s).2 events
    have hafter := reachable_afterAll hmade events
    have hmade' := Nat.lt_of_lt_of_le hr (w.keeps_internKeyword r s).registries_le
    have hr' := Nat.lt_of_lt_of_le hmade' hkeeps.registries_le
    have hk := (hkeeps.registry hmade').keywords _ _ (w.lookup_internKeyword r hr s)
    generalize (w.internKeyword r s).2.afterAll events = u at *
    have hlast : Reachable (u.internKeyword r s').2 := hafter.after (.internKeyword r s')
    have hk := ((u.keeps_internKeyword r s').registry hr').keywords _ _ hk
    exact (reachable_registered hlast).keywords_equal hk (u.lookup_internKeyword r hr' s')
  entered _ _ _ _ hk hk' :=
    (reachable_registered (reachable_afterAll h events)).keywords_equal hk hk'

end World

/-- In a reachable world each namespace, var and keyword stands under its own name; whatever happens
afterwards removes and replaces none of them; and what is interned once is interned for good. -/
theorem interned_for_good (h : Reachable w) :
    w.Registered ∧ ∀ events, w.Keeps (w.afterAll events) ∧
      ∀ r, r < w.registries.size → w.InternsForGood r events :=
  ⟨reachable_registered h, fun events =>
    ⟨w.keeps_afterAll events, fun _ hr => World.internsForGood h hr events⟩⟩

/-- The var `x` is interned in a new registry, then a text defines it, the registry is copied, and it is
interned again. -/
theorem interned_for_good_defined :
    Reachable (World.empty.after (.create 0 10)) ∧ 0 < (World.empty.after (.create 0 10)).registries.size ∧
      ((((World.empty.after (.create 0 10)).internVar 0 (coreSymbol "x")).2.afterAll
        [.eval ⟨0, 0⟩ 30 "(def x 1)", .copy 0]).internVar 0 (coreSymbol "x")).1 =
          .ok ⟨5, coreSymbol "x"⟩ := by
  have h : Reachable (World.empty.after (.create 0 10)) := Reachable.empty.after _
  have hsize : 0 < (World.empty.after (.create 0 10)).registries.size := by cbv
  exact ⟨h, hsize, (((interned_for_good h).2 _).2 0 hsize).var _ _ (by cbv)⟩

end SmallLisp
