import SmallLisp.Proofs.Session.Permanence
import SmallLisp.Proofs.World.Informed

/-!
# Keywords stand under their names

In every reachable world a keyword that a registry holds has the name that it is entered under, and its
namespace part is final (`reachable_faithful`): interning makes such keywords alone, and nothing else makes
any.
-/

namespace SmallLisp

/-- Every keyword has the name that it is entered under, with a final namespace part. -/
def World.Faithful (w : World) : Prop :=
  ∀ r s k, (w.registry r).keywords.lookup s = some k → k.sym = s ∧ k.resolved = true

namespace World

/-! ## What leaves the keywords as they are -/

section

variable (w : World) (r q : RegistryId)

theorem keywords_modifyRegistry {f : Registry → Registry} (hf : ∀ a, (f a).keywords = a.keywords) :
    ((w.modifyRegistry r f).registry q).keywords = (w.registry q).keywords := by
  rw [registry_modifyRegistry]
  split
  · exact hf _
  · rfl

@[simp] theorem keywords_internNamespace (name : String) :
    ((w.internNamespace r name).2.registry q).keywords = (w.registry q).keywords := by
  unfold internNamespace
  split
  · rfl
  · exact keywords_modifyRegistry { w with tables := w.tables.push [] } r q fun _ => rfl

@[simp] theorem keywords_defaultThreadState :
    ((w.defaultThreadState r).2.registry q).keywords = (w.registry q).keywords := by
  rw [registry_defaultThreadState]
  exact keywords_internNamespace w r q coreName

@[simp] theorem keywords_threadState (here : Site) :
    ((w.threadState here).2.registry q).keywords = (w.registry q).keywords := by
  unfold threadState
  split
  · rfl
  · have hdefault := keywords_defaultThreadState w here.registry q
    generalize w.defaultThreadState here.registry = made at hdefault ⊢
    refine .trans (keywords_modifyRegistry made.2 here.registry q fun _ => ?_) hdefault
    rfl

end

/-! ## Interning -/

namespace Faithful

variable {w u : World}

/-- The tables of keywords alone matter. -/
theorem of_same (h : w.Faithful) (hk : ∀ q, (u.registry q).keywords = (w.registry q).keywords) :
    u.Faithful := fun q s k hlookup => h q s k (hk q ▸ hlookup)

theorem informed (h : w.Faithful) (hu : w.Informed u) : u.Faithful := by
  intro r s k hlookup
  obtain hsame | ⟨-, hlearnt⟩ := (hu.registry r).keywords s
  · exact h r s k (hsame ▸ hlookup)
  · rw [hlearnt] at hlookup
    cases hlookup
    exact ⟨rfl, rfl⟩

theorem glanced (h : w.Faithful) (hu : w.Glanced u) : u.Faithful :=
  informed (u := { u with objects := w.objects }) h hu

/-- The keyword of a name has this name. -/
theorem internKeyword (h : w.Faithful) (r : RegistryId) (s : Symbol) :
    (w.internKeyword r s).1.sym = s ∧ (w.internKeyword r s).1.resolved = true := by
  unfold World.internKeyword
  split
  · rename_i hk
    exact h r s _ hk
  · exact ⟨rfl, rfl⟩

end Faithful

end World

/-- In every reachable world keywords stand under their names. -/
theorem reachable_faithful {w : World} (h : Reachable w) : w.Faithful :=
  fun r _ _ hk => ((reachable_registered h).named r).keyword_name (mem_of_lookup hk)

end SmallLisp
