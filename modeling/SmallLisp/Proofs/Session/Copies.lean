import SmallLisp.Proofs.Session.Permanence
import SmallLisp.Proofs.World.Interning

/-!
# Copies of the registries of reachable worlds

A copy of a registry is an image of it, whatever has been done in any registry before, and on any threads.
From then on a thread that switches to a namespace in one of the two does not do so in the other one
(`copy_image`).
-/

namespace SmallLisp

open World

/-- The world is reachable, and the registry has been made in it, anew or as a copy of one that had been
made. -/
inductive HasRegistry : World → RegistryId → Prop
  | create {w : World} (h : Reachable w) (thread : ThreadId) (limit : Nat) :
    HasRegistry (w.after (.create thread limit)) w.registries.size
  | copy {w : World} {r : RegistryId} (h : HasRegistry w r) :
    HasRegistry (w.after (.copy r)) w.registries.size
  | after {w : World} {r : RegistryId} (h : HasRegistry w r) (e : Event) : HasRegistry (w.after e) r

variable {w : World} {r : RegistryId}

theorem HasRegistry.reachable (h : HasRegistry w r) : Reachable w := by
  induction h with
  | create h thread limit => exact h.after _
  | copy _ ih => exact ih.after _
  | after _ e ih => exact ih.after e

/-- A new registry has a core namespace. -/
theorem World.core_newRegistry (w : World) (thread : ThreadId) (limit : Nat) :
    ∃ n, (w.newRegistry thread limit).2.findNamespace? w.registries.size coreName = some n := by
  have hkeeps := w.keeps_newRegistry_core thread limit
  have hlt : w.registries.size <
      ({ w with registries := w.registries.push ⟨[], [], [], limit⟩ } : World).registries.size := by
    simp
  generalize ({ w with registries := w.registries.push ⟨[], [], [], limit⟩ } : World) = u at *
  have hfound := find_internNamespace u hlt coreName
  exact ⟨_, hkeeps.find hfound⟩

/-- A registry that has been made has a core namespace. -/
theorem HasRegistry.core (h : HasRegistry w r) : ∃ n, w.findNamespace? r coreName = some n := by
  induction h with
  | @create w h thread limit => exact w.core_newRegistry thread limit
  | @copy w r h ih =>
    obtain ⟨n, hn⟩ := ih
    obtain ⟨m, hm, -⟩ := forall₂_lookup ((reachable_registered h.reachable).image r).namespaces hn
    exact ⟨m, hm⟩
  | @after w r h e ih =>
    obtain ⟨n, hn⟩ := ih
    exact ⟨n, (w.keeps_after e).find hn⟩

theorem HasRegistry.lt (h : HasRegistry w r) : r < w.registries.size :=
  let ⟨_, hn⟩ := h.core
  lt_of_find hn

theorem HasRegistry.afterAll (h : HasRegistry w r) (events : List Event) :
    HasRegistry (w.afterAll events) r := by
  induction events generalizing w with
  | nil => exact h
  | cons e events ih => exact ih (h.after e)

/-- Threads that switch to a namespace do not do so in another registry. -/
theorem HasRegistry.currentNamespace (h : HasRegistry w r) {q : RegistryId} (hq : q ≠ r)
    (thread other : ThreadId) (name : String) :
    ((w.switchNamespace ⟨q, thread⟩ name).2.currentNamespace ⟨r, other⟩).1 =
      (w.currentNamespace ⟨r, other⟩).1 := by
  obtain ⟨core, hcore⟩ := h.core
  have hapart := (reachable_registered h.reachable).toApart
  exact currentNamespace_switchNamespace hapart hq.symm hcore thread other name

/-- A copy of a registry is an image of it, and ever after threads that switch to a namespace in one of
them stay where they are in the other one. -/
theorem copy_image (h : HasRegistry w r) :
    w.RegistryImage (w.copyRegistry r).2 r (w.copyRegistry r).1 ∧
      ∀ (events : List Event) (thread other : ThreadId) (name : String),
        (((((w.copyRegistry r).2.afterAll events).switchNamespace ⟨r, thread⟩ name).2.currentNamespace
            ⟨(w.copyRegistry r).1, other⟩).1 =
          (((w.copyRegistry r).2.afterAll events).currentNamespace ⟨(w.copyRegistry r).1, other⟩).1) ∧
        ((((w.copyRegistry r).2.afterAll events).switchNamespace
            ⟨(w.copyRegistry r).1, thread⟩ name).2.currentNamespace ⟨r, other⟩).1 =
          (((w.copyRegistry r).2.afterAll events).currentNamespace ⟨r, other⟩).1 := by
  obtain ⟨u, x, copies, states, hsteps⟩ := (reachable_registered h.reachable).copySteps r
  rw [hsteps.number]
  refine ⟨(reachable_registered h.reachable).image r, fun events thread other name => ?_⟩
  have hsource : HasRegistry ((w.copyRegistry r).2.afterAll events) r := (h.after (.copy r)).afterAll events
  have hcopy : HasRegistry ((w.copyRegistry r).2.afterAll events) w.registries.size := h.copy.afterAll events
  exact ⟨hcopy.currentNamespace (Nat.ne_of_lt h.lt) thread other name,
    hsource.currentNamespace (Nat.ne_of_gt h.lt) thread other name⟩

namespace Copies

/-- A registry in which the thread 1 is in the namespace `user`. -/
def userWorld : World := (World.empty.after (.create 0 10)).after (.switchNamespace ⟨0, 1⟩ "user")

end Copies

open Copies in
/-- The thread 1 stays in `user` when it goes elsewhere in a copy. -/
theorem copy_image_user : HasRegistry userWorld 0 ∧
    (((userWorld.copyRegistry 0).2.switchNamespace ⟨1, 1⟩ "other").2.currentNamespace ⟨0, 1⟩).1 =
      .ok ⟨1, "user"⟩ := by
  have h : HasRegistry userWorld 0 := (HasRegistry.create .empty 0 10).after _
  exact ⟨h, ((copy_image h).2 [] 1 1 "other").2.trans (by cbv)⟩

end SmallLisp
