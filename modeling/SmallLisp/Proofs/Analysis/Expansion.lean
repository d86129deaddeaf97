import Mathlib
import SmallLisp.Proofs.Action.Run
import SmallLisp.Proofs.Session.Depth
import SmallLisp.Proofs.Session.Reachable
import SmallLisp.Proofs.World.Growth

/-!
# Macro calls and what they expand to

A macro call means what its expansion settles at (`finishes_macroCall_iff`). Expansion goes on by itself
until it settles, and looks at the heads of forms alone: it knows neither the open scopes nor the special
forms. So a form on the way means the same as the call itself where the next step of the expansion and
the analysis of that form agree about it (`meaning_expansion_step`): where expansion finds no macro at its
head, or one that is called by its full name, which is never a local name or a special form.

They do not agree about a head that is the bare name of a macro, and of a special form or a local name
as well: expansion calls the macro.
-/

namespace SmallLisp

variable {here : Site} {w u : World} {S : List Scope}

/-- With enough depth the form is analysed to this result. -/
def Finishes (here : Site) (S : List Scope) (form : Value) (w : World)
    (r : EStateM.Result Halt Desk Expr) : Prop :=
  Finished r ∧ ∃ depth, Analysis.meaning here depth form ⟨w, S⟩ = r

/-- More than one depth may be taken for the one that is enough. -/
theorem Finishes.at_least {form : Value} {r : EStateM.Result Halt Desk Expr}
    (h : Finishes here S form w r) (least : Nat) :
    ∃ depth, least ≤ depth ∧ Analysis.meaning here depth form ⟨w, S⟩ = r := by
  obtain ⟨hr, depth, hd⟩ := h
  have hfin : Finished (Analysis.meaning here depth form ⟨w, S⟩) := by rw [hd]; exact hr
  exact ⟨max depth least, Nat.le_max_right _ _,
    (meaning_deeper (Nat.le_max_left _ _) hfin).trans hd⟩

/-- With enough depth there is only one result. -/
theorem Finishes.unique {form : Value} {r r' : EStateM.Result Halt Desk Expr}
    (h : Finishes here S form w r) (h' : Finishes here S form w r') : r = r' := by
  obtain ⟨hr', depth, hd⟩ := h'
  obtain ⟨more, hmore, hr⟩ := h.at_least depth
  have hfin : Finished (Analysis.meaning here depth form ⟨w, S⟩) := by rw [hd]; exact hr'
  exact hr.symm.trans ((meaning_deeper hmore hfin).trans hd)

/-! ## Looking for macros -/

/-- The thread has used the registry, and the registry has the keyword that marks macros, so that
looking for a macro leaves the world as it is. -/
structure Primed (here : Site) (w : World) : Prop where
  /-- The thread has a state. -/
  thread : (w.threadState? here).isSome
  /-- The keyword is there. -/
  mark : ((w.registry here.registry).keywords.lookup (Symbol.bare "macro")).isSome

namespace Primed

theorem of_grows (h : Primed here w)
    (hg : (w.registry here.registry).Grows (u.registry here.registry)) : Primed here u := by
  obtain ⟨state, hstate⟩ := Option.isSome_iff_exists.mp h.thread
  obtain ⟨k, hk⟩ := Option.isSome_iff_exists.mp h.mark
  exact ⟨Option.isSome_iff_exists.mpr ⟨state, hg.threads _ _ hstate⟩,
    Option.isSome_iff_exists.mpr ⟨k, hg.keywords _ _ hk⟩⟩

theorem currentNamespace (h : Primed here w) : (w.currentNamespace here).2 = w := by
  obtain ⟨state, hstate⟩ := Option.isSome_iff_exists.mp h.thread
  unfold World.currentNamespace World.threadState
  rw [hstate]

theorem findVar (h : Primed here w) (s : Symbol) : (w.findVar here s).2 = w := by
  unfold World.findVar
  split
  · rfl
  · exact h.currentNamespace

theorem markKey (h : Primed here w) : ∃ key, SmallLisp.markKey here w = .ok key w := by
  obtain ⟨k, hk⟩ := Option.isSome_iff_exists.mp h.mark
  refine ⟨.keyword k, ?_⟩
  have hi : w.internKeyword here.registry (Symbol.bare "macro") = (k, w) := by
    unfold World.internKeyword
    rw [hk]
  show EStateM.Result.ok (Value.keyword (w.internKeyword here.registry (Symbol.bare "macro")).1)
    (w.internKeyword here.registry (Symbol.bare "macro")).2 = _
  rw [hi]

end Primed

/-- A var that is marked has metadata. -/
theorem isNone_metadata {v : Var} {key : Value} (h : w.hasFlag v key = true) : (w.metadata v).isNone = false := by
  unfold World.hasFlag at h
  cases hm : w.metadata v with
  | some m => rfl
  | none =>
    rw [hm] at h
    cases h

/-- Expansion takes the var that a head names for a macro just if it is marked. -/
theorem macroVar_of_findVar {head : Symbol} {v : Var} {key : Value}
    (hfind : w.findVar here head = (.ok (some v), w)) (hkey : markKey here w = .ok key w) :
    macroVar? here head w = .ok (if w.hasFlag v key then some v else none) w := by
  have hmetadata : Action.view (·.metadata v) w = .ok (w.metadata v) w := rfl
  have hview : Action.view (·.hasFlag v key) w = .ok (w.hasFlag v key) w := rfl
  unfold macroVar?
  rw [run_bind_of_ok (attempt_of_ok hfind)]
  dsimp only
  rw [run_bind_of_ok hmetadata]
  cases hflag : w.hasFlag v key with
  | true =>
    rw [isNone_metadata hflag, if_neg Bool.false_ne_true, run_bind_of_ok hkey, run_bind_of_ok hview, hflag]
    rfl
  | false =>
    split
    · rfl
    · rw [run_bind_of_ok hkey, run_bind_of_ok hview, hflag]
      rfl

/-- What expansion has found out about a head: the world is as before, and a macro is the var that the
head names, which is marked. -/
theorem Primed.of_macroVar (h : Primed here w) {head : Symbol} {found : Option Var}
    (hm : macroVar? here head w = .ok found u) :
    u = w ∧ ∀ v, found = some v → w.findVar here head = (.ok (some v), w) ∧
      ∃ key, SmallLisp.markKey here w = .ok key w ∧ w.hasFlag v key = true := by
  obtain ⟨var, w', hfind, hrest⟩ := of_run_bind_ok hm
  have hfind := of_attempt_ok hfind
  obtain rfl : w = w' := by rw [← h.findVar head, hfind]
  cases var with
  | none =>
    cases hrest
    exact ⟨rfl, nofun⟩
  | some v =>
    obtain ⟨key, hkey⟩ := h.markKey
    rw [macroVar_of_findVar hfind hkey] at hm
    cases hm
    refine ⟨rfl, fun v' hv' => ?_⟩
    split at hv'
    · rename_i hflag
      cases hv'
      exact ⟨hfind, key, hkey, hflag⟩
    · cases hv'

/-- Where analysis looks up the var that a head names, the list is a macro call just if the var is marked. -/
theorem kind_of_resolve {head : Symbol} {v : Var} {key : Value} {w' : World}
    (hlocal : Analysis.isLocal head ⟨w, S⟩ = .ok false ⟨w, S⟩) (hspecial : Analysis.specialForm? head = none)
    (hresolve : Analysis.resolve here head w = .ok (some v) w') (hkey : markKey here w' = .ok key u) :
    Analysis.kind here head ⟨w, S⟩ = .ok (if u.hasFlag v key then .macroCall v else .call) ⟨u, S⟩ := by
  have hview : Action.view (·.hasFlag v key) u = .ok (u.hasFlag v key) u := rfl
  have hcalled : Analysis.calledMacro? here head w = .ok (if u.hasFlag v key then some v else none) u := by
    unfold Analysis.calledMacro?
    rw [run_bind_of_ok hresolve]
    dsimp only
    rw [run_bind_of_ok hkey, run_bind_of_ok hview]
    cases u.hasFlag v key <;> rfl
  have hglobal : Analysis.globalKind here head w = .ok (if u.hasFlag v key then .macroCall v else .call) u := by
    unfold Analysis.globalKind
    rw [hspecial]
    dsimp only
    rw [run_bind_of_ok hcalled]
    cases u.hasFlag v key <;> rfl
  unfold Analysis.kind
  rw [run_bind_of_ok hlocal]
  exact Analysis.act_of_ok hglobal

/-- A head that expansion calls a macro by, and that has a namespace part, is one for analysis. -/
theorem Primed.kind_of_macroVar (h : Primed here w) {head : Symbol} {v : Var}
    (hq : head.isQualified = true) (hm : macroVar? here head w = .ok (some v) u) :
    Analysis.kind here head ⟨w, S⟩ = .ok (.macroCall v) ⟨w, S⟩ := by
  obtain ⟨rfl, hv⟩ := h.of_macroVar hm
  obtain ⟨hfind, key, hkey, hflag⟩ := hv v rfl
  have hspecial : Analysis.specialForm? head = none := by
    unfold Analysis.specialForm?
    rw [if_pos hq]
  have hlocal : Analysis.isLocal head ⟨u, S⟩ = .ok false ⟨u, S⟩ := by
    unfold Analysis.isLocal
    rw [hq]
    rfl
  rw [kind_of_resolve hlocal hspecial (resolve_of_findVar hfind) hkey, if_pos hflag]

/-! ## What the analysis of a macro call has looked at -/

/-- The names of the core namespace are looked up after the others. -/
theorem grows_of_resolve {head : Symbol} {found : Option Var}
    (h : Analysis.resolve here head w = .ok found u) :
    ((w.findVar here head).2.registry here.registry).Grows (u.registry here.registry) ∧
      u.registries.size = w.registries.size := by
  obtain ⟨var, w', hf, h⟩ := of_run_bind_ok h
  have hsize := w.size_registries_findVar here head
  rw [of_attempt_ok hf] at hsize ⊢
  cases var with
  | some v =>
    cases h
    exact ⟨.refl _, hsize⟩
  | none =>
    dsimp only at h
    split at h
    · cases h
      exact ⟨.refl _, hsize⟩
    · obtain ⟨core, w'', hc, h⟩ := of_run_bind_ok h
      cases hc
      cases h
      exact ⟨w'.grows_internNamespace _ _ coreName,
        (w'.size_registries_internNamespace _ coreName).trans hsize⟩

/-- A macro is the var that the head names for analysis, which is marked. -/
theorem of_calledMacro {head : Symbol} {mac : Var} (h : Analysis.calledMacro? here head w = .ok (some mac) u) :
    ∃ w' key, Analysis.resolve here head w = .ok (some mac) w' ∧ markKey here w' = .ok key u ∧
      u.hasFlag mac key = true := by
  obtain ⟨var, w', hresolve, h⟩ := of_run_bind_ok h
  cases var with
  | none => cases h
  | some v =>
    obtain ⟨key, w₂, hkey, h⟩ := of_run_bind_ok h
    obtain ⟨flag, w₃, hview, h⟩ := of_run_bind_ok h
    cases hview
    split at h
    · rename_i hflag
      cases h
      exact ⟨w', key, hresolve, hkey, hflag⟩
    · cases h

/-- A macro that a head names has been looked up, and its mark as well. -/
theorem primed_of_calledMacro {head : Symbol} {mac : Var} (hr : here.registry < w.registries.size)
    (ht : head.isQualified = true → (w.threadState? here).isSome)
    (h : Analysis.calledMacro? here head w = .ok (some mac) u) : Primed here u := by
  obtain ⟨w₁, key, hresolve, hkey, -⟩ := of_calledMacro h
  cases hkey
  -- The thread has its state since the head was looked up.
  have hthread : ((w.findVar here head).2.threadState? here).isSome := by
    unfold World.findVar
    split
    · rename_i hq
      exact ht hq
    · exact Option.isSome_of_eq_some (w.threadState?_threadState hr)
  obtain ⟨state, hstate⟩ := Option.isSome_iff_exists.mp hthread
  obtain ⟨hg, hsize⟩ := grows_of_resolve hresolve
  have hg := hg.trans (w₁.grows_internKeyword here.registry here.registry (Symbol.bare "macro"))
  exact ⟨Option.isSome_iff_exists.mpr ⟨state, hg.threads _ _ hstate⟩,
    Option.isSome_iff_exists.mpr ⟨_, w₁.lookup_internKeyword _ (hsize ▸ hr) _⟩⟩

/-- A macro call is one whose head is no special form and names a macro. -/
theorem of_globalKind_macroCall {head : Symbol} {mac : Var}
    (h : Analysis.globalKind here head w = .ok (.macroCall mac) u) :
    Analysis.calledMacro? here head w = .ok (some mac) u := by
  unfold Analysis.globalKind at h
  cases hs : Analysis.specialForm? head with
  | some form =>
    rw [hs] at h
    cases h
  | none =>
    rw [hs] at h
    obtain ⟨called, w₁, hc, h⟩ := of_run_bind_ok h
    cases called with
    | none => cases h
    | some v =>
      cases h
      exact hc

/-- Its head is no local name either. -/
theorem of_kind_macroCall {head : Symbol} {mac : Var} {d : Desk}
    (h : Analysis.kind here head ⟨w, S⟩ = .ok (.macroCall mac) d) :
    Analysis.calledMacro? here head w = .ok (some mac) d.world ∧ d.scopes = S := by
  obtain ⟨found, e, hlocal, h⟩ := of_run_bind_ok h
  cases hlocal
  split at h
  · cases h
  · obtain ⟨u, hglobal, rfl⟩ := Analysis.of_act_ok h
    exact ⟨of_globalKind_macroCall hglobal, rfl⟩

/-! ## Steps of an expansion -/

/-- An expansion that has not settled yet goes on from the next form. -/
theorem expandWithin_cases {once : Value → Action Value} {whole form settled expanded : Value}
    {limit left : Nat} {v : World} (hx : once form w = .ok expanded u)
    (h : expandWithin once whole limit left form w = .ok settled v) :
    (expanded.identical form = true ∧ settled = form ∧ v = u) ∨
      expanded.identical form = false ∧
        ∃ less, left = less + 1 ∧ expandWithin once whole limit less expanded u = .ok settled v := by
  unfold expandWithin at h
  rw [run_bind_of_ok hx] at h
  cases hi : expanded.identical form with
  | true =>
    rw [hi] at h
    cases h
    exact .inl ⟨rfl, rfl, rfl⟩
  | false =>
    rw [hi] at h
    cases left with
    | zero => cases h
    | succ less => exact .inr ⟨rfl, less, rfl, h⟩

/-- An expansion succeeds only if the form it is given can be expanded once. -/
theorem of_expandWithin {once : Value → Action Value} {whole form settled : Value}
    {limit left : Nat} (h : expandWithin once whole limit left form w = .ok settled u) :
    ∃ expanded v, once form w = .ok expanded v := by
  unfold expandWithin at h
  obtain ⟨expanded, v, hx, -⟩ := of_run_bind_ok h
  exact ⟨expanded, v, hx⟩

/-- An expansion that settles, settles at the same form if more steps are allowed. -/
theorem expandWithin_more {once : Value → Action Value} {whole whole' form settled : Value}
    {limit limit' left more : Nat} (hl : left ≤ more)
    (h : expandWithin once whole limit left form w = .ok settled u) :
    expandWithin once whole' limit' more form w = .ok settled u := by
  induction left generalizing more form w with
  | zero =>
    obtain ⟨expanded, v, hx⟩ := of_expandWithin h
    obtain ⟨hi, rfl, rfl⟩ | ⟨-, less, hless, -⟩ := expandWithin_cases hx h
    · unfold expandWithin
      rw [run_bind_of_ok hx, if_pos hi]
      rfl
    · cases hless
  | succ left ih =>
    obtain ⟨expanded, v, hx⟩ := of_expandWithin h
    obtain ⟨hi, rfl, rfl⟩ | ⟨hi, less, hless, h⟩ := expandWithin_cases hx h
    · unfold expandWithin
      rw [run_bind_of_ok hx, if_pos hi]
      rfl
    · cases hless
      obtain ⟨more, rfl⟩ : ∃ n, more = n + 1 := ⟨more - 1, by omega⟩
      unfold expandWithin
      rw [run_bind_of_ok hx, hi]
      exact ih (Nat.le_of_succ_le_succ hl) h

/-- A form that expands to itself in an unchanged world settles at itself, if it settles. -/
theorem expandWithin_self {once : Value → Action Value} {whole form settled : Value}
    {limit left : Nat} (hx : once form w = .ok form w)
    (h : expandWithin once whole limit left form w = .ok settled u) : settled = form ∧ u = w := by
  induction left with
  | zero =>
    obtain ⟨-, hs, hu⟩ | ⟨-, less, hless, -⟩ := expandWithin_cases hx h
    · exact ⟨hs, hu⟩
    · cases hless
  | succ left ih =>
    obtain ⟨-, hs, hu⟩ | ⟨-, less, hless, h⟩ := expandWithin_cases hx h
    · exact ⟨hs, hu⟩
    · cases hless
      exact ih h

/-- Whatever the function of a macro does, the registry keeps what it holds. -/
theorem grows_of_expandOnce {depth : Nat} {form expanded : Value} (h : expandOnce here depth form w = .ok expanded u) :
    (w.registry here.registry).Grows (u.registry here.registry) := by
  have hgrowing := World.growing here (w.registry here.registry)
  have honce := Lockstep.expandOnce (L := hgrowing.invariant.lockstep) (Nat.le_refl depth) form
    (hgrowing.allows form)
  exact (Invariant.of_ok honce (.refl _) h).2

/-- A form is given back as it is, or its head names a macro. -/
theorem Primed.expandOnce_cases (h : Primed here w) {depth : Nat} {form expanded : Value}
    (hx : expandOnce here depth form w = .ok expanded u) :
    expandOnce here depth form w = .ok form w ∨
      ∃ id head args v, form = .list id (.symbol head :: args) ∧
        macroVar? here head w = .ok (some v) w := by
  unfold expandOnce expandOnceWith at hx ⊢
  split at hx
  · rename_i id head args
    obtain ⟨found, v, hm, -⟩ := of_run_bind_ok hx
    obtain ⟨rfl, -⟩ := h.of_macroVar hm
    cases found with
    | none =>
      rw [run_bind_of_ok hm]
      exact .inl rfl
    | some v => exact .inr ⟨id, head, args, v, rfl, hm⟩
  · exact .inl rfl

/-! ## The meaning of a macro call -/

section

variable {head : Symbol} {form named : Value} {args : List Value} {mac : Var}

/-- A call by the full name of the macro is expanded as it stands. -/
theorem namedCall_of_eq (h : mac.name = head) (w : World) :
    Analysis.namedCall mac head form args w = .ok form w := by
  unfold Analysis.namedCall
  rw [if_pos h]
  rfl

/-- Any other call is made anew, with the full name. -/
theorem namedCall_of_ne (h : mac.name ≠ head) (w : World) :
    Analysis.namedCall mac head form args w =
      .ok (.list w.newObject.1 (.symbol mac.name :: args)) w.newObject.2 := by
  unfold Analysis.namedCall
  rw [if_neg h]
  rfl

/-- Naming a macro in full makes an object at most. -/
theorem registry_of_namedCall (h : Analysis.namedCall mac head form args w = .ok named u) :
    u.registry = w.registry := by
  by_cases hname : mac.name = head
  · rw [namedCall_of_eq hname] at h
    cases h
    rfl
  · rw [namedCall_of_ne hname] at h
    cases h
    rfl

end

/-- A macro call that expands with this depth is analysed like the form that it settles at. -/
theorem meaning_macroCall {id : ObjectId} {head : Symbol} {args : List Value} {mac : Var}
    {named settled : Value} {w₁ w₂ w₃ : World} {depth : Nat}
    (hcall : Analysis.kind here head ⟨w, S⟩ = .ok (.macroCall mac) ⟨w₁, S⟩)
    (hnamed : Analysis.namedCall mac head (.list id (.symbol head :: args)) args w₁ = .ok named w₂)
    (hsettles : expandFully here depth named w₂ = .ok settled w₃) :
    Analysis.meaning here (depth + 1) (.list id (.symbol head :: args)) ⟨w, S⟩ =
      Analysis.meaning here depth settled ⟨w₃, S⟩ := by
  have hx : Analysis.expansion (expandFully here depth) mac head (.list id (.symbol head :: args))
      args w₁ = .ok settled w₃ := by
    unfold Analysis.expansion
    rw [run_bind_of_ok hnamed]
    exact hsettles
  show Analysis.form here (Analysis.meaning here depth) (expandFully here depth) _ _ = _
  unfold Analysis.form
  dsimp only
  rw [run_bind_of_ok hcall]
  dsimp only
  rw [run_bind_of_ok (Analysis.act_of_ok hx)]

/-- A macro call means what its expansion settles at. -/
theorem finishes_macroCall_iff {id : ObjectId} {head : Symbol} {args : List Value} {mac : Var}
    {named settled : Value} {w₁ w₂ w₃ : World} {depth : Nat}
    (hcall : Analysis.kind here head ⟨w, S⟩ = .ok (.macroCall mac) ⟨w₁, S⟩)
    (hnamed : Analysis.namedCall mac head (.list id (.symbol head :: args)) args w₁ = .ok named w₂)
    (hsettles : expandFully here depth named w₂ = .ok settled w₃)
    (r : EStateM.Result Halt Desk Expr) :
    Finishes here S (.list id (.symbol head :: args)) w r ↔ Finishes here S settled w₃ r := by
  have deep : ∀ more, depth ≤ more → expandFully here more named w₂ = .ok settled w₃ :=
    fun more hm => (expandFully_deeper hm (by rw [hsettles]; trivial)).trans hsettles
  constructor
  · intro h
    obtain ⟨d, hd, hr⟩ := h.at_least (depth + 1)
    obtain ⟨d, rfl⟩ : ∃ n, d = n + 1 := ⟨d - 1, by omega⟩
    rw [meaning_macroCall hcall hnamed (deep d (Nat.le_of_succ_le_succ hd))] at hr
    exact ⟨h.1, d, hr⟩
  · intro h
    obtain ⟨d, hd, hr⟩ := h.at_least depth
    exact ⟨h.1, d + 1, (meaning_macroCall hcall hnamed (deep d hd)).trans hr⟩

/-- Where expansion finds a macro at the head of the form, the head is the full name of it. -/
def CallsByFullName (here : Site) (w : World) (form : Value) : Prop :=
  ∀ id head args v u, form = .list id (.symbol head :: args) →
    macroVar? here head w = .ok (some v) u → head.isQualified = true ∧ v.name = head

/-- Expansion with a step to spare goes on from the form after the step. -/
theorem expandFully_cases {depth : Nat} {named next settled : Value} {w₃ w₄ : World}
    (hstep : expandOnce here depth named w = .ok next w₃)
    (hsettles : expandFully here depth named w = .ok settled w₄) :
    (next.identical named = true ∧ settled = named ∧ w₄ = w₃) ∨
      ∃ left, left < (w.registry here.registry).expansionLimit ∧
        expandWithin (expandOnce here depth) named (w.registry here.registry).expansionLimit left
          next w₃ = .ok settled w₄ := by
  obtain h | ⟨-, left, hl, h⟩ := expandWithin_cases hstep hsettles
  · exact .inl h
  · refine .inr ⟨left, ?_, h⟩
    show left < (fun w : World => (w.registry here.registry).expansionLimit) w
    omega

/-- The first step of the expansion of a macro call does not change what it means: under the same
scopes, the call and the form after the step are analysed to the same expression or the same error, in
the same world. The form after the step must not be a call of a macro by a bare name, which analysis
could take for a local name or a special form, and for which it would hand the macro another form. -/
theorem meaning_expansion_step {id : ObjectId} {head : Symbol} {args : List Value} {mac : Var}
    {named next settled : Value} {w₁ w₂ w₃ w₄ : World} {depth : Nat}
    (hregistry : here.registry < w.registries.size)
    (hthread : head.isQualified = true → (w.threadState? here).isSome)
    (hcall : Analysis.kind here head ⟨w, S⟩ = .ok (.macroCall mac) ⟨w₁, S⟩)
    (hnamed : Analysis.namedCall mac head (.list id (.symbol head :: args)) args w₁ = .ok named w₂)
    (hstep : expandOnce here depth named w₂ = .ok next w₃)
    (hsame : next.identical named = true → next = named)
    (hsettles : expandFully here depth named w₂ = .ok settled w₄)
    (hnext : CallsByFullName here w₃ next) (r : EStateM.Result Halt Desk Expr) :
    Finishes here S (.list id (.symbol head :: args)) w r ↔ Finishes here S next w₃ r := by
  rw [finishes_macroCall_iff hcall hnamed hsettles]
  -- Looking for macros changes nothing any more, from the call on.
  have hgrows : (w₁.registry here.registry).Grows (w₃.registry here.registry) :=
    registry_of_namedCall hnamed ▸ grows_of_expandOnce hstep
  have hprimed : Primed here w₃ := (primed_of_calledMacro hregistry hthread (of_kind_macroCall hcall).1).of_grows hgrows
  obtain ⟨hi, rfl, rfl⟩ | ⟨left, hleft, hrest⟩ := expandFully_cases hstep hsettles
  · rw [hsame hi]
  obtain ⟨expanded, v, hx⟩ := of_expandWithin hrest
  obtain hx | ⟨id', head', args', mac', rfl, hmac⟩ := hprimed.expandOnce_cases hx
  · -- Expansion finds no macro: the form after the step is what it settles at.
    obtain ⟨rfl, rfl⟩ := expandWithin_self hx hrest
    exact Iff.rfl
  · -- Analysis finds the same macro, by its full name, and expands the very same form.
    obtain ⟨hq, hname⟩ := hnext id' head' args' mac' _ rfl hmac
    have hsettles' : expandFully here depth (.list id' (.symbol head' :: args')) w₃ =
        .ok settled w₄ := by
      refine expandWithin_more ?_ hrest
      show left ≤ (w₃.registry here.registry).expansionLimit
      rw [(grows_of_expandOnce hstep).expansionLimit]
      exact Nat.le_of_lt hleft
    exact (finishes_macroCall_iff (hprimed.kind_of_macroVar hq hmac) (namedCall_of_eq hname w₃) hsettles' r).symm

/-! ## A macro named like a special form -/

namespace Expansion

/-- Where the examples run. -/
def site : Site := ⟨0, 0⟩

/-- A world with a macro `m` whose calls expand to `(if 1 2)`. -/
def plainWorld : World :=
  (World.empty.after (.create 0 10)).after (.eval site 30 "(defmacro m [] '(if 1 2))")

/-- The same with a macro `if` before it, whose calls expand to 42. -/
def shadowedWorld : World :=
  (World.empty.after (.create 0 10)).after
    (.eval site 30 "(defmacro if [a b] 42) (defmacro m [] '(if 1 2))")

/-- The call `(m)`. -/
def macroCall : Value := .list 100 [.symbol (Symbol.bare "m")]

/-- The call `(m)` by the full name of the macro, as a new list of this number. -/
def namedCall (id : ObjectId) : Value := .list id [.symbol (coreSymbol "m")]

/-- The form `(if 1 2)`, a list of this number. -/
def choice (id : ObjectId) : Value := .list id [.symbol (Symbol.bare "if"), .int 1, .int 2]

/-- What a choice between 1 and 2 is analysed to. -/
def chosen : Expr := .branch (.const (.int 1)) (.const (.int 2)) none

end Expansion

open Expansion in
/-- The call `(m)` is analysed to a choice, as the form after its only step is. -/
theorem meaning_expansion_step_choice :
    Finishes site [] macroCall plainWorld
      (.ok chosen ⟨{ plainWorld with objects := plainWorld.objects + 1 }, []⟩) := by
  have hcall : Analysis.kind site (Symbol.bare "m") ⟨plainWorld, []⟩ =
      .ok (.macroCall ⟨5, coreSymbol "m"⟩) ⟨plainWorld, []⟩ := by cbv
  have hnamed : Analysis.namedCall ⟨5, coreSymbol "m"⟩ (Symbol.bare "m") macroCall [] plainWorld =
      .ok (namedCall 5) { plainWorld with objects := plainWorld.objects + 1 } := by cbv
  have hstep : expandOnce site 20 (namedCall 5)
      { plainWorld with objects := plainWorld.objects + 1 } =
        .ok (choice 1) { plainWorld with objects := plainWorld.objects + 1 } := by cbv
  have hsettles : expandFully site 20 (namedCall 5)
      { plainWorld with objects := plainWorld.objects + 1 } =
        .ok (choice 1) { plainWorld with objects := plainWorld.objects + 1 } := by cbv
  have hnext : CallsByFullName site { plainWorld with objects := plainWorld.objects + 1 }
      (choice 1) := by
    rintro id head args v u heq hmac
    cases heq
    have hnone : macroVar? site (Symbol.bare "if")
        { plainWorld with objects := plainWorld.objects + 1 } =
          .ok none { plainWorld with objects := plainWorld.objects + 1 } := by cbv
    cases hnone.symm.trans hmac
  refine (meaning_expansion_step (by cbv) (fun _ => by cbv) hcall hnamed hstep
    (fun h => absurd h (by decide)) hsettles hnext _).mpr ⟨trivial, 20, ?_⟩
  cbv

/-- What `meaning_expansion_step` would say of every form after the step: that under all scopes it means
the same as the call. -/
def StepsKeepMeaning : Prop :=
  ∀ (here : Site) (S : List Scope) (w w₁ w₂ w₃ w₄ : World) (id : ObjectId) (head : Symbol)
    (args : List Value) (mac : Var) (named next settled : Value) (depth : Nat),
    here.registry < w.registries.size → (w.threadState? here).isSome →
    Analysis.kind here head ⟨w, S⟩ = .ok (.macroCall mac) ⟨w₁, S⟩ →
    Analysis.namedCall mac head (.list id (.symbol head :: args)) args w₁ = .ok named w₂ →
    expandOnce here depth named w₂ = .ok next w₃ → (next.identical named = true → next = named) →
    expandFully here depth named w₂ = .ok settled w₄ →
    ∀ r, Finishes here S (.list id (.symbol head :: args)) w r ↔ Finishes here S next w₃ r

open Expansion in
/-- It does not hold of every form: expansion calls a macro that is named like a special form. Here the
call `(m)` is analysed to 42, and the form `(if 1 2)` after its first step to a choice. -/
theorem not_stepsKeepMeaning : ¬ StepsKeepMeaning := by
  intro h
  have hiff := h site [] shadowedWorld shadowedWorld
    { shadowedWorld with objects := shadowedWorld.objects + 1 }
    { shadowedWorld with objects := shadowedWorld.objects + 1 }
    { shadowedWorld with objects := shadowedWorld.objects + 1 } 100 (Symbol.bare "m") []
    ⟨6, coreSymbol "m"⟩ (namedCall 8) (choice 4) (.int 42) 20
    (by cbv) (by cbv) (by cbv) (by cbv) (by cbv) (fun h => absurd h (by decide)) (by cbv)
  have hcall : Finishes site [] macroCall shadowedWorld (.ok (.const (.int 42))
      ⟨{ shadowedWorld with objects := shadowedWorld.objects + 1 }, []⟩) :=
    ⟨trivial, 20, by cbv⟩
  obtain ⟨depth, hdepth, hmeaning⟩ := ((hiff _).mp hcall).at_least 20
  have hchoice : Analysis.meaning site 20 (choice 4)
      ⟨{ shadowedWorld with objects := shadowedWorld.objects + 1 }, []⟩ =
        .ok chosen ⟨{ shadowedWorld with objects := shadowedWorld.objects + 1 }, []⟩ := by cbv
  rw [meaning_deeper hdepth (by rw [hchoice]; trivial), hchoice] at hmeaning
  cases hmeaning

end SmallLisp
