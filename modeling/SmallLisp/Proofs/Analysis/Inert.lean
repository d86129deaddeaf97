import SmallLisp.Proofs.Analysis.Counting
import SmallLisp.Proofs.Analysis.Heads
import SmallLisp.Proofs.Session.Permanence

/-!
# Forms that are no macro calls

A form that is not a list headed by the name of a macro is given back as it is by the expansion by one step, and
so the whole expansion settles at it at once, in one call and whatever the limit. A macro call that expands to
such a form settles after one step (`inert_settles`).

The empty vector is the exception. It is not identical even to itself (`identical_self_iff`), so that its
expansion goes on until the limit is reached (`expandFully_emptyVector`), and so does the expansion of every
macro call that leads to one (`not_inertFormsSettle`).
-/

namespace SmallLisp

variable {here : Site} {w u v : World} {form next : Value} {depth : Nat}

/-! ## Identity -/

namespace Value

/-- Only an empty vector is not identical to itself. -/
theorem identical_self_iff (a : Value) : a.identical a = true ↔ ∀ id, a ≠ .vector id [] := by
  cases a with
  | vector id items => cases items <;> simp [identical]
  | _ => simp [identical]

end Value

/-! ## Looking for a macro in vain -/

/-- The form is no list headed by a symbol that names a macro. A symbol at its head can be looked up, without a
fault. -/
def Inert (here : Site) (w : World) (form : Value) : Prop :=
  ∀ id head args, form = .list id (.symbol head :: args) →
    ∃ found u, w.findVar here head = (.ok found, u) ∧ ∀ v, found = some v → u.isMacro v = false

theorem World.metadata_internKeyword (w : World) (r : RegistryId) (s : Symbol) (v : Var) :
    (w.internKeyword r s).2.metadata v = w.metadata v := by
  unfold World.internKeyword
  split <;> rfl

theorem World.Registered.findVar (h : w.Registered) (here : Site) (s : Symbol) :
    (w.findVar here s).2.Registered := by
  unfold World.findVar
  split
  · exact h
  · exact h.threadState here

/-- A head whose var, if it has one, does not bear the mark of macros. -/
theorem macroVar_of_unmarked (hw : w.Registered) {head : Symbol} {found : Option Var}
    (hfind : w.findVar here head = (.ok found, u)) (hmark : ∀ v, found = some v → u.isMacro v = false) :
    ∃ t, macroVar? here head w = .ok none t := by
  unfold macroVar?
  rw [run_bind_of_ok (attempt_of_ok hfind)]
  cases found with
  | none => exact ⟨u, rfl⟩
  | some v =>
    have hmetadata : Action.view (·.metadata v) u = .ok (u.metadata v) u := rfl
    dsimp only
    rw [run_bind_of_ok hmetadata]
    cases (u.metadata v).isNone with
    | true => exact ⟨u, rfl⟩
    | false =>
      have hu : u.Registered := by
        have h := hw.findVar here head
        rwa [hfind] at h
      obtain ⟨key, hkey, hflag⟩ := hu.hasFlag_markKey here
      have hunmarked : Action.view (·.hasFlag v key)
          (u.internKeyword here.registry (Symbol.bare "macro")).2 =
            .ok false (u.internKeyword here.registry (Symbol.bare "macro")).2 := by
        rw [← hmark v rfl, ← World.isMacro_congr (World.metadata_internKeyword u here.registry _ v), ← hflag]
        rfl
      refine ⟨(u.internKeyword here.registry (Symbol.bare "macro")).2, (run_bind_of_ok hkey).trans ?_⟩
      exact run_bind_of_ok hunmarked

/-- The expansion by one step gives the form back. -/
theorem expandOnce_of_inert (hw : w.Registered) (h : Inert here w form) :
    ∃ u, ∀ depth, expandOnce here depth form w = .ok form u := by
  have hplain : (∀ id head args, form ≠ .list id (.symbol head :: args)) →
      ∀ depth, expandOnce here depth form w = .ok form w := by
    intro hne depth
    unfold expandOnce expandOnceWith
    split
    · exact absurd rfl (hne _ _ _)
    · rfl
  by_cases hlist : ∃ id head args, form = .list id (.symbol head :: args)
  · obtain ⟨id, head, args, rfl⟩ := hlist
    obtain ⟨found, u, hfind, hmark⟩ := h id head args rfl
    obtain ⟨t, hnone⟩ := macroVar_of_unmarked hw hfind hmark
    exact ⟨t, fun depth => run_bind_of_ok hnone⟩
  · exact ⟨w, hplain fun id head args heq => hlist ⟨id, head, args, heq⟩⟩

/-! ## Settling -/

/-- What the expansion by one step gives back is settled at once, if it is identical to itself. -/
theorem expandFully_of_same (honce : ∀ depth, expandOnce here depth form w = .ok form u)
    (hform : ∀ id, form ≠ .vector id []) (depth : Nat) :
    expandFully here depth form w = .ok form u ∧
      countedExpansion here depth form ⟨w, 0⟩ = .ok form ⟨u, 1⟩ :=
  have hsame := form.identical_self_iff.mpr hform
  ⟨expandWithin_of_same (honce depth) hsame _, expandLoop_of_same (counted_of_ok (honce depth)) hsame _⟩

/-- A form that one step leads to another one settles there within a limit of one, if the other one is left as
it is. -/
theorem expandFully_of_step (hstep : expandOnce here depth form v = .ok next w)
    (hnext : expandOnce here depth next w = .ok next u) (hself : ∀ id, next ≠ .vector id [])
    (hlimit : 1 ≤ v.expansionLimit here) :
    ∃ settled t, expandFully here depth form v = .ok settled t ∧ next.identical settled = true := by
  cases hsame : next.identical form with
  | true => exact ⟨form, w, expandWithin_of_same hstep hsame _, hsame⟩
  | false =>
    have hsettles := next.identical_self_iff.mpr hself
    obtain ⟨rest, hrest⟩ := Nat.exists_eq_add_of_le' hlimit
    refine ⟨next, u, ?_, hsettles⟩
    calc expandFully here depth form v
      _ = expandWithin (expandOnce here depth) form (rest + 1) (rest + 1) form v := by rw [← hrest]; rfl
      _ = expandWithin (expandOnce here depth) form (rest + 1) rest next w :=
        expandWithin_succ hstep hsame rest
      _ = .ok next u := expandWithin_of_same hnext hsettles rest

/-- A form that is no macro call is given back by one step as it is. The whole expansion settles at it in one
call, without an error, and a macro call that one step leads to it settles within a limit of one; both unless the
form is an empty vector. -/
theorem inert_settles (hw : Reachable w) (hinert : Inert here w form) :
    ∃ u, (∀ depth, expandOnce here depth form w = .ok form u) ∧
      ((∀ id, form ≠ .vector id []) →
        (∀ depth, expandFully here depth form w = .ok form u ∧
          countedExpansion here depth form ⟨w, 0⟩ = .ok form ⟨u, 1⟩) ∧
        ∀ depth call v, expandOnce here depth call v = .ok form w → 1 ≤ v.expansionLimit here →
          ∃ settled t, expandFully here depth call v = .ok settled t ∧ form.identical settled = true) := by
  obtain ⟨u, honce⟩ := expandOnce_of_inert (reachable_registered hw) hinert
  refine ⟨u, honce, fun hform => ⟨expandFully_of_same honce hform, ?_⟩⟩
  intro depth call v hcall hlimit
  exact expandFully_of_step hcall (honce depth) hform hlimit

namespace Expansion

/-- Making a list makes an object, and changes nothing else. -/
theorem reachable_namedWorld : Reachable namedWorld :=
  have hmade : plainWorld.after (.call site 1 (.native .list) []) = namedWorld := rfl
  hmade ▸ ((Reachable.empty.after _).after _).after _

theorem inert_choice : Inert site namedWorld (choice 1) := by
  rintro id head args ⟨⟩
  exact ⟨none, namedWorld, by cbv, nofun⟩

end Expansion

open Expansion in
/-- The call `(m)` expands to a form that calls no macro, and settles there. -/
theorem inert_settles_choice : ∃ settled t,
    expandFully site 20 (namedCall 5) namedWorld = .ok settled t ∧ (choice 1).identical settled = true := by
  have hlimit : namedWorld.expansionLimit site = 10 := by cbv
  obtain ⟨u, -, hsettles⟩ := inert_settles reachable_namedWorld inert_choice
  have hform : ∀ id, choice 1 ≠ .vector id [] := by
    rintro id ⟨⟩
  exact (hsettles hform).2 20 (namedCall 5) namedWorld expandOnce_namedCall (by rw [hlimit]; decide)

/-! ## The empty vector -/

/-- The expansion of an empty vector goes on until the limit is reached. -/
theorem expandFully_emptyVector (here : Site) (depth : Nat) (id : ObjectId) (w : World) :
    expandFully here depth (.vector id []) w =
      .error (.error (.expansionLimit (.vector id []) (w.expansionLimit here))) w := by
  have honce : expandOnce here depth (.vector id []) w = .ok (.vector id []) w := rfl
  have hsteps : ∀ limit left, expandWithin (expandOnce here depth) (.vector id []) limit left
      (.vector id []) w = .error (.error (.expansionLimit (.vector id []) limit)) w := by
    intro limit left
    induction left with
    | zero => exact expandWithin_zero honce rfl
    | succ left ih => exact (expandWithin_succ honce rfl left).trans ih
  exact hsteps _ _

/-- What `inert_settles` would say without its exception: forms that are no macro calls are given back and settle
at once, and so do the macro calls that lead to them, within a limit of one. -/
def InertFormsSettle : Prop :=
  ∀ (here : Site) (w : World) (form : Value), Reachable w → Inert here w form →
    ∃ u, ∀ depth, expandOnce here depth form w = .ok form u ∧ expandFully here depth form w = .ok form u ∧
      ∀ call v, expandOnce here depth call v = .ok form w → 1 ≤ v.expansionLimit here →
        ∃ settled t, expandFully here depth call v = .ok settled t

namespace Expansion

/-- A world with a limit of one expansion and a macro `m` whose calls expand to an empty vector. -/
def emptyWorld : World :=
  (World.empty.after (.create 0 1)).after (.eval site 30 "(defmacro m [] [])")

/-- The world in which the call `(m)` has been expanded once. -/
def expandedWorld : World := { emptyWorld with objects := emptyWorld.objects + 1 }

theorem expandOnce_emptyWorld :
    expandOnce site 20 macroCall emptyWorld = .ok (.vector emptyWorld.objects []) expandedWorld := by cbv

theorem reachable_expandedWorld : Reachable expandedWorld :=
  have hmade : emptyWorld.after (.call site 1 (.native .list) []) = expandedWorld := rfl
  hmade ▸ ((Reachable.empty.after _).after _).after _

end Expansion

open Expansion in
/-- The call `(m)` expands to an empty vector in one step, and the limit is one, but it does not settle. -/
theorem not_inertFormsSettle : ¬ InertFormsSettle := by
  intro h
  have hlimit : emptyWorld.expansionLimit site = 1 := by cbv
  have hinert : Inert site expandedWorld (.vector emptyWorld.objects []) := by
    rintro id head args ⟨⟩
  obtain ⟨u, hsettles⟩ := h site expandedWorld (.vector emptyWorld.objects []) reachable_expandedWorld hinert
  obtain ⟨settled, t, hcall⟩ :=
    (hsettles 20).2.2 macroCall emptyWorld expandOnce_emptyWorld (by rw [hlimit])
  have hexceeded : expandFully site 20 macroCall emptyWorld =
      .error (.error (.expansionLimit macroCall 1)) expandedWorld := by cbv
  rw [hexceeded] at hcall
  cases hcall

end SmallLisp
