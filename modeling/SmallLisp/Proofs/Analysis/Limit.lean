import SmallLisp.Proofs.Analysis.Expansion

/-!
# The expansion limit

Expansion replaces a macro call by form after form until it settles (`Leads`, `Settles`). It goes that way
for at most as many steps as the limit of the registry allows, and fails when there would be one more
(`expandWithin_outcome`). So if analysis takes the form that an expansion settles at for no macro call any more,
the limit bounds how often one form is replaced, and the analysis of a form whose macro functions
return comes past all its expansions (`analysis_within_limit`).

Analysis finds macros in the core namespace that expansion does not find by their bare names, and a macro may
return the very call it was given. Then the form that the expansion settles at is a macro call once more, and
analysis expands it with the whole limit before it (`not_limitBoundsAnalysis`).
-/

namespace SmallLisp

variable {here : Site} {S : List Scope} {w u v v' : World} {form named next final : Value} {n : Nat}

/-- So many expansions, one after the other, replace a form by another one. -/
inductive Leads (here : Site) : Nat → Value → World → Value → World → Prop
  /-- The form itself. -/
  | refl {form : Value} {w : World} : Leads here 0 form w form w
  /-- An expansion in front of others. -/
  | step {n depth : Nat} {form next final : Value} {w u v : World}
    (honce : expandOnce here depth form w = .ok next u) (hchanged : next.identical form = false)
    (hrest : Leads here n next u final v) : Leads here (n + 1) form w final v

/-- Expansion leaves the form as it is: it finds no macro, or the macro returns the form. -/
def Settles (here : Site) (form : Value) (w u : World) : Prop :=
  ∃ depth next, expandOnce here depth form w = .ok next u ∧ next.identical form = true

/-- Every macro function that is called on the way returns, with a value or with an error. -/
def Returns (here : Site) (form : Value) (w : World) : Prop :=
  ∀ n next v, Leads here n form w next v → ∃ depth, Finished (expandOnce here depth next v)

/-- Analysis takes the form for a macro call, and has `named` expanded in its place. -/
def Calls (here : Site) (S : List Scope) (form : Value) (w : World) (named : Value) (u : World) : Prop :=
  ∃ id head args mac d, form = .list id (.symbol head :: args) ∧
    Analysis.kind here head ⟨w, S⟩ = .ok (.macroCall mac) d ∧
      Analysis.namedCall mac head form args d.world = .ok named u

/-- So many expansions in all replace the form, for analysis, by one that is no macro call. -/
inductive Reaches (here : Site) (S : List Scope) : Nat → Value → World → Value → World → Prop
  /-- The form itself is none. -/
  | done {form : Value} {w : World} (h : ¬ ∃ named u, Calls here S form w named u) :
    Reaches here S 0 form w form w
  /-- A macro call is expanded until it settles, and then the form it settles at is looked at. -/
  | round {n m : Nat} {form named settled final : Value} {w u v v' w' : World}
    (hcall : Calls here S form w named u) (hleads : Leads here n named u settled v)
    (hsettles : Settles here settled v v') (hrest : Reaches here S m settled v' final w') :
    Reaches here S (n + m) form w final w'

/-- How many expansions a form may take. -/
def World.expansionLimit (w : World) (here : Site) : Nat := (w.registry here.registry).expansionLimit

/-! ## Expansion within a limit -/

section

variable {once : Value → Action Value} {whole : Value} {limit : Nat}

theorem expandWithin_of_error {e : Halt} (h : once form w = .error e u) (left : Nat) :
    expandWithin once whole limit left form w = .error e u := by
  unfold expandWithin
  exact run_bind_of_error h

theorem expandWithin_of_same (h : once form w = .ok next u) (hsame : next.identical form = true)
    (left : Nat) : expandWithin once whole limit left form w = .ok form u := by
  unfold expandWithin
  rw [run_bind_of_ok h, if_pos hsame]
  rfl

theorem expandWithin_zero (h : once form w = .ok next u) (hchanged : next.identical form = false) :
    expandWithin once whole limit 0 form w = .error (.error (.expansionLimit whole limit)) u := by
  unfold expandWithin
  rw [run_bind_of_ok h, hchanged]
  rfl

theorem expandWithin_succ (h : once form w = .ok next u) (hchanged : next.identical form = false)
    (left : Nat) :
    expandWithin once whole limit (left + 1) form w = expandWithin once whole limit left next u := by
  rw [expandWithin, run_bind_of_ok h, hchanged]
  rfl

end

/-- How an expansion that may take so many more steps ends: it settles within them, or it would need one more,
or a macro function fails. -/
theorem expandWithin_outcome (depth : Nat) (whole : Value) (limit left : Nat) (form : Value) (w : World) :
    (∃ n final v v', n ≤ left ∧ Leads here n form w final v ∧ Settles here final v v' ∧
      expandWithin (expandOnce here depth) whole limit left form w = .ok final v') ∨
    (∃ next v, Leads here (left + 1) form w next v ∧
      expandWithin (expandOnce here depth) whole limit left form w =
        .error (.error (.expansionLimit whole limit)) v) ∨
    ∃ n next v e t, n ≤ left ∧ Leads here n form w next v ∧
      expandOnce here depth next v = .error e t ∧
        expandWithin (expandOnce here depth) whole limit left form w = .error e t := by
  cases honce : expandOnce here depth form w with
  | error e t =>
    exact .inr (.inr ⟨0, form, w, e, t, Nat.zero_le _, .refl, honce, expandWithin_of_error honce left⟩)
  | ok next u =>
    cases hsame : next.identical form with
    | true =>
      have hsettles : Settles here form w u := ⟨depth, next, honce, hsame⟩
      exact .inl ⟨0, form, w, u, Nat.zero_le _, .refl, hsettles, expandWithin_of_same honce hsame left⟩
    | false =>
      cases left with
      | zero => exact .inr (.inl ⟨next, u, .step honce hsame .refl, expandWithin_zero honce hsame⟩)
      | succ left =>
        -- One step is used up, and the others start from the next form.
        rw [expandWithin_succ honce hsame]
        obtain ⟨n, final, v, v', hn, hleads, hsettles, hr⟩ | ⟨final, v, hleads, hr⟩ |
          ⟨n, final, v, e, t, hn, hleads, herror, hr⟩ := expandWithin_outcome depth whole limit left next u
        · exact .inl ⟨n + 1, final, v, v', Nat.succ_le_succ hn, .step honce hsame hleads, hsettles, hr⟩
        · exact .inr (.inl ⟨final, v, .step honce hsame hleads, hr⟩)
        · have hleads' := Leads.step honce hsame hleads
          exact .inr (.inr ⟨n + 1, final, v, e, t, Nat.succ_le_succ hn, hleads', herror, hr⟩)

/-- A form is expanded within a limit in the same way with more depth. -/
theorem expandWithin_deeper {d d' : Nat} (h : d ≤ d') {whole : Value} {limit left : Nat}
    (hr : Finished (expandWithin (expandOnce here d) whole limit left form w)) :
    expandWithin (expandOnce here d') whole limit left form w =
      expandWithin (expandOnce here d) whole limit left form w :=
  Lockstep.Steps.deeper
    (Lockstep.expandWithin (fun form hform => Lockstep.expandOnce h form hform) whole limit left form
      ((Kept.anything here).allows form)) hr

/-- Where every macro function returns, some depth is enough. -/
theorem exists_depth {form : Value} {w : World} (hreturns : Returns here form w) (whole : Value)
    (limit left : Nat) :
    ∃ depth, Finished (expandWithin (expandOnce here depth) whole limit left form w) := by
  obtain ⟨d, hd⟩ := hreturns 0 form w .refl
  cases honce : expandOnce here d form w with
  | error e t =>
    refine ⟨d, ?_⟩
    rw [expandWithin_of_error honce, ← honce]
    exact hd
  | ok next u =>
    cases hsame : next.identical form with
    | true =>
      refine ⟨d, ?_⟩
      rw [expandWithin_of_same honce hsame]
      trivial
    | false =>
      cases left with
      | zero =>
        refine ⟨d, ?_⟩
        rw [expandWithin_zero honce hsame]
        trivial
      | succ left =>
        have hnext : Returns here next u := fun n final v hleads =>
          hreturns (n + 1) final v (.step honce hsame hleads)
        obtain ⟨d', hd'⟩ := exists_depth hnext whole limit left
        -- The greater of the two depths is enough for the step and for what follows it.
        have honce' := (expandOnce_deeper (Nat.le_max_left d d') hd).trans honce
        refine ⟨max d d', ?_⟩
        rw [expandWithin_succ honce' hsame, expandWithin_deeper (Nat.le_max_right d d') hd']
        exact hd'

/-! ## Analysis within a limit -/

/-- Finding a macro call does not change the limit. -/
theorem expansionLimit_of_calls (h : Calls here S form w named u) :
    u.expansionLimit here = w.expansionLimit here := by
  obtain ⟨id, head, args, mac, d, rfl, hkind, hnamed⟩ := h
  have hgrowing := World.growing here (w.registry here.registry)
  have hsteps := Lockstep.calledMacro (L := hgrowing.invariant.lockstep) head
  have hgrows := (Invariant.of_ok hsteps (.refl _) (of_kind_macroCall hkind).1).2
  unfold World.expansionLimit
  rw [registry_of_namedCall hnamed, hgrows.expansionLimit]

/-- A macro call whose expansion fails is not analysed. -/
theorem finishes_of_expansion_error {e : Halt} {depth : Nat} (hcall : Calls here S form w named u)
    (hfails : expandFully here depth named u = .error e v) (he : e ≠ .outOfDepth) :
    Finishes here S form w (.error e ⟨v, S⟩) := by
  obtain ⟨id, head, args, mac, d, rfl, hkind, hnamed⟩ := hcall
  obtain ⟨w₁, scopes⟩ := d
  obtain rfl : scopes = S := (of_kind_macroCall hkind).2
  have hx : Analysis.expansion (expandFully here depth) mac head (.list id (.symbol head :: args))
      args w₁ = .error e v := by
    unfold Analysis.expansion
    rw [run_bind_of_ok hnamed]
    exact hfails
  have hfinished : Finished (.error e ⟨v, scopes⟩ : EStateM.Result Halt Desk Expr) := by
    cases e with
    | outOfDepth => exact absurd rfl he
    | error e => trivial
  refine ⟨hfinished, depth + 1, ?_⟩
  have hact : Analysis.act (Analysis.expansion (expandFully here depth) mac head
      (.list id (.symbol head :: args)) args) ⟨w₁, scopes⟩ = .error e ⟨v, scopes⟩ := by
    unfold Analysis.act
    dsimp only
    rw [hx]
  show Analysis.form here (Analysis.meaning here depth) (expandFully here depth) _ _ = _
  unfold Analysis.form
  exact (run_bind_of_ok hkind).trans (run_bind_of_error hact)

/-- A macro call is analysed like the form that its expansion settles at. -/
theorem finishes_of_expansion {depth : Nat} (hcall : Calls here S form w named u)
    (hsettles : expandFully here depth named u = .ok final v)
    (r : EStateM.Result Halt Desk Expr) : Finishes here S form w r ↔ Finishes here S final v r := by
  obtain ⟨id, head, args, mac, d, rfl, hkind, hnamed⟩ := hcall
  obtain ⟨w₁, scopes⟩ := d
  obtain rfl : scopes = S := (of_kind_macroCall hkind).2
  exact finishes_macroCall_iff hkind hnamed hsettles r

/-- A form whose macro functions return is replaced by at most as many expansions as the limit allows before a
form is reached that is no macro call, and then it is analysed like that form; or one more expansion would be
needed, and the analysis fails with the limit; or it fails because a macro function does. This asks that the
form that an expansion settles at is not taken for a macro call again. -/
theorem analysis_within_limit
    (hreturns : ∀ named u, Calls here S form w named u → Returns here named u)
    (hdone : ∀ named u n final v v', Calls here S form w named u → Leads here n named u final v →
      Settles here final v v' → ¬ ∃ again t, Calls here S final v' again t) :
    (∃ n final v, n ≤ w.expansionLimit here ∧ Reaches here S n form w final v ∧
      ∀ r, Finishes here S form w r ↔ Finishes here S final v r) ∨
    (∃ named u next v, Calls here S form w named u ∧
      Leads here (w.expansionLimit here + 1) named u next v ∧
        Finishes here S form w
          (.error (.error (.expansionLimit named (w.expansionLimit here))) ⟨v, S⟩)) ∨
    ∃ named u n next v e t depth, n ≤ w.expansionLimit here ∧ Calls here S form w named u ∧
      Leads here n named u next v ∧ expandOnce here depth next v = .error e t ∧
        Finishes here S form w (.error e ⟨t, S⟩) := by
  by_cases hcall : ∃ named u, Calls here S form w named u
  · obtain ⟨named, u, hcall⟩ := hcall
    rw [← expansionLimit_of_calls hcall]
    obtain ⟨depth, hdepth⟩ := exists_depth (hreturns named u hcall) named
      (u.expansionLimit here) (u.expansionLimit here)
    -- The limit that the expansion counts down from is that of the world it begins in.
    have hfully : expandFully here depth named u = expandWithin (expandOnce here depth) named
        (u.expansionLimit here) (u.expansionLimit here) named u := rfl
    obtain ⟨n, final, v, v', hn, hleads, hsettles, hr⟩ | ⟨next, v, hleads, hr⟩ |
      ⟨n, next, v, e, t, hn, hleads, herror, hr⟩ :=
        expandWithin_outcome depth named (u.expansionLimit here) (u.expansionLimit here) named u
    · have hreaches : Reaches here S (n + 0) form w final v' :=
        .round hcall hleads hsettles (.done (hdone _ _ _ _ _ _ hcall hleads hsettles))
      exact .inl ⟨n, final, v', hn, hreaches, finishes_of_expansion hcall (hfully.trans hr)⟩
    · have hlimit := finishes_of_expansion_error hcall (hfully.trans hr) nofun
      exact .inr (.inl ⟨named, u, next, v, hcall, hleads, hlimit⟩)
    · have he : e ≠ .outOfDepth := by
        rintro rfl
        rw [hr] at hdepth
        exact hdepth
      have hfails := finishes_of_expansion_error hcall (hfully.trans hr) he
      exact .inr (.inr ⟨named, u, n, next, v, e, t, depth, hn, hcall, hleads, herror, hfails⟩)
  · exact .inl ⟨0, form, w, Nat.zero_le _, .done hcall, fun _ => Iff.rfl⟩

/-- Where expansion finds no macro at the head of a form, analysis finds none either, if the head has a
namespace part or names a var of the current namespace. Only for another bare name does it go on to look in
the core namespace. -/
theorem Primed.not_calls (h : Primed here w) {id : ObjectId} {head : Symbol} {args : List Value}
    (hnone : macroVar? here head w = .ok none u)
    (hfound : head.isQualified = true ∨ (w.findVar here head).1 ≠ .ok none) :
    ¬ ∃ named t, Calls here S (.list id (.symbol head :: args)) w named t := by
  rintro ⟨named, t, id', head', args', mac, d, hform, hkind, -⟩
  cases hform
  obtain ⟨w₁, key, hresolve, hkey, hflag⟩ := of_calledMacro (of_kind_macroCall hkind).1
  -- The var is the one that expansion has looked at, in the same world.
  obtain ⟨var, w₂, hfind, hresolve⟩ := of_run_bind_ok hresolve
  have hfind := of_attempt_ok hfind
  obtain rfl : w = w₂ := by rw [← h.findVar head, hfind]
  have hvar : w.findVar here head = (.ok (some mac), w) ∧ w₁ = w := by
    cases var with
    | some v =>
      cases hresolve
      exact ⟨hfind, rfl⟩
    | none =>
      obtain hqualified | hne := hfound
      · dsimp only at hresolve
        rw [if_pos hqualified] at hresolve
        cases hresolve
      · rw [hfind] at hne
        exact absurd rfl hne
  obtain ⟨hfind, rfl⟩ := hvar
  obtain ⟨key', hkey'⟩ := h.markKey
  obtain ⟨rfl, hworld⟩ := EStateM.Result.ok.inj (hkey.symm.trans hkey')
  rw [hworld] at hflag
  -- So expansion would have found the mark as well.
  rw [macroVar_of_findVar hfind hkey', if_pos hflag] at hnone
  cases hnone

/-- With enough depth a form is expanded once in only one way. -/
theorem expandOnce_unique {d d' : Nat} {r r' : EStateM.Result Halt World Value}
    (h : expandOnce here d form w = r) (hr : Finished r) (h' : expandOnce here d' form w = r')
    (hr' : Finished r') : r = r' := by
  subst h h'
  have hleft := expandOnce_deeper (Nat.le_max_left d d') hr
  have hright := expandOnce_deeper (Nat.le_max_right d d') hr'
  exact hleft.symm.trans hright

namespace Expansion

/-- The world in which the call `(m)` has got its full name. -/
def namedWorld : World := { plainWorld with objects := plainWorld.objects + 1 }

theorem calls_macroCall (h : Calls site [] macroCall plainWorld named u) :
    named = namedCall 5 ∧ u = namedWorld := by
  have hkind : Analysis.kind site (Symbol.bare "m") ⟨plainWorld, []⟩ =
      .ok (.macroCall ⟨5, coreSymbol "m"⟩) ⟨plainWorld, []⟩ := by cbv
  have hnamed : Analysis.namedCall ⟨5, coreSymbol "m"⟩ (Symbol.bare "m") macroCall [] plainWorld =
      .ok (namedCall 5) namedWorld := by cbv
  obtain ⟨id, head, args, mac, d, hform, hkind', hnamed'⟩ := h
  cases hform
  rw [hkind] at hkind'
  cases hkind'
  dsimp only at hnamed'
  rw [hnamed] at hnamed'
  cases hnamed'
  exact ⟨rfl, rfl⟩

theorem expandOnce_namedCall : expandOnce site 20 (namedCall 5) namedWorld = .ok (choice 1) namedWorld := by
  cbv

theorem expandOnce_choice : expandOnce site 20 (choice 1) namedWorld = .ok (choice 1) namedWorld := by
  cbv

/-- The forms that the expansion of `(m)` goes through. -/
theorem leads_namedCall (h : Leads site n (namedCall 5) namedWorld next v) :
    v = namedWorld ∧ (n = 0 ∧ next = namedCall 5 ∨ n = 1 ∧ next = choice 1) := by
  obtain _ | ⟨honce, -, hrest⟩ := h
  · exact ⟨rfl, .inl ⟨rfl, rfl⟩⟩
  · cases expandOnce_unique honce trivial expandOnce_namedCall trivial
    obtain _ | ⟨honce, hchanged, -⟩ := hrest
    · exact ⟨rfl, .inr ⟨rfl, rfl⟩⟩
    · cases expandOnce_unique honce trivial expandOnce_choice trivial
      exact absurd hchanged (by decide)

end Expansion

open Expansion in
/-- Within a limit of ten expansions the call `(m)` is analysed like a form that is no macro call. -/
theorem analysis_within_limit_choice :
    ∃ n final v, n ≤ plainWorld.expansionLimit site ∧
      Reaches site [] n macroCall plainWorld final v ∧
        ∀ r, Finishes site [] macroCall plainWorld r ↔ Finishes site [] final v r := by
  have hlimit : plainWorld.expansionLimit site = 10 := by cbv
  have hspecial : Analysis.kind site (Symbol.bare "if") ⟨namedWorld, []⟩ =
      .ok (.special .branch) ⟨namedWorld, []⟩ := by cbv
  have hreturns : ∀ named u, Calls site [] macroCall plainWorld named u → Returns site named u := by
    intro named u hcall n next v hleads
    obtain ⟨rfl, rfl⟩ := calls_macroCall hcall
    obtain ⟨rfl, ⟨-, rfl⟩ | ⟨-, rfl⟩⟩ := leads_namedCall hleads
    · exact ⟨20, by rw [expandOnce_namedCall]; trivial⟩
    · exact ⟨20, by rw [expandOnce_choice]; trivial⟩
  have hdone : ∀ named u n final v v', Calls site [] macroCall plainWorld named u →
      Leads site n named u final v → Settles site final v v' →
        ¬ ∃ again t, Calls site [] final v' again t := by
    rintro named u n final v v' hcall hleads ⟨depth, next, honce, hsame⟩
    obtain ⟨rfl, rfl⟩ := calls_macroCall hcall
    obtain ⟨rfl, ⟨-, rfl⟩ | ⟨-, rfl⟩⟩ := leads_namedCall hleads
    · cases expandOnce_unique honce trivial expandOnce_namedCall trivial
      exact absurd hsame (by decide)
    · cases expandOnce_unique honce trivial expandOnce_choice trivial
      rintro ⟨again, t, id, head, args, mac, d, hform, hkind, -⟩
      cases hform
      rw [hspecial] at hkind
      cases hkind
  obtain hreaches | ⟨named, u, next, v, hcall, hleads, -⟩ |
    ⟨named, u, n, next, v, e, t, depth, -, hcall, hleads, herror, hfinishes⟩ :=
      analysis_within_limit hreturns hdone
  · exact hreaches
  · obtain ⟨rfl, rfl⟩ := calls_macroCall hcall
    rw [hlimit] at hleads
    obtain ⟨-, ⟨⟨⟩, -⟩ | ⟨⟨⟩, -⟩⟩ := leads_namedCall hleads
  · obtain ⟨rfl, rfl⟩ := calls_macroCall hcall
    have hfinished : Finished (.error e t : EStateM.Result Halt World Value) := by
      cases e with
      | outOfDepth => exact hfinishes.1
      | error e => trivial
    obtain ⟨rfl, ⟨-, rfl⟩ | ⟨-, rfl⟩⟩ := leads_namedCall hleads
    · cases expandOnce_unique herror hfinished expandOnce_namedCall trivial
    · cases expandOnce_unique herror hfinished expandOnce_choice trivial

/-! ## A form that is a macro call for analysis alone -/

namespace Expansion

/-- A world with a limit of one expansion and two core macros, of which `a` expands to `(b)` and `b` to 5. The
current namespace is another one. -/
def twoStepWorld : World :=
  (World.empty.after (.create 0 1)).after
    (.eval site 30 "(defmacro a [] '(b)) (defmacro b [] 5) (in-ns 'user)")

/-- That world with so many more objects. -/
def twoStepLater (k : Nat) : World := { twoStepWorld with objects := twoStepWorld.objects + k }

/-- A call of a macro without arguments. -/
def plainCall (id : ObjectId) (head : Symbol) : Value := .list id [.symbol head]

end Expansion

/-- What `analysis_within_limit` would say of every macro call: where more expansions are needed than the
limit allows, analysis fails with the limit. -/
def LimitBoundsAnalysis : Prop :=
  ∀ (here : Site) (S : List Scope) (w v : World) (form final : Value) (n : Nat),
    Reaches here S n form w final v → w.expansionLimit here < n →
      ∃ named u, Finishes here S form w
        (.error (.error (.expansionLimit named (w.expansionLimit here))) ⟨u, S⟩)

open Expansion in
/-- Two expansions replace `(a)`, one after the other, although the limit is one. -/
theorem reaches_two : Reaches site [] 2 (plainCall 100 (Symbol.bare "a")) twoStepWorld (.int 5)
    (twoStepLater 2) := by
  have ha : Calls site [] (plainCall 100 (Symbol.bare "a")) twoStepWorld
      (plainCall 10 (coreSymbol "a")) (twoStepLater 1) :=
    ⟨100, Symbol.bare "a", [], ⟨5, coreSymbol "a"⟩, ⟨twoStepWorld, []⟩, rfl, by cbv, by cbv⟩
  have hb : Calls site [] (plainCall 1 (Symbol.bare "b")) (twoStepLater 1)
      (plainCall 11 (coreSymbol "b")) (twoStepLater 2) :=
    ⟨1, Symbol.bare "b", [], ⟨6, coreSymbol "b"⟩, ⟨twoStepLater 1, []⟩, rfl, by cbv, by cbv⟩
  have hfirst : expandOnce site 20 (plainCall 10 (coreSymbol "a")) (twoStepLater 1) =
      .ok (plainCall 1 (Symbol.bare "b")) (twoStepLater 1) := by cbv
  have hsettles : Settles site (plainCall 1 (Symbol.bare "b")) (twoStepLater 1) (twoStepLater 1) :=
    ⟨20, plainCall 1 (Symbol.bare "b"), by cbv, by decide⟩
  have hsecond : expandOnce site 20 (plainCall 11 (coreSymbol "b")) (twoStepLater 2) =
      .ok (.int 5) (twoStepLater 2) := by cbv
  have hfive : Settles site (.int 5) (twoStepLater 2) (twoStepLater 2) := ⟨20, .int 5, by cbv, by decide⟩
  have hdone : ¬ ∃ named u, Calls site [] (.int 5) (twoStepLater 2) named u := by
    rintro ⟨named, u, id, head, args, mac, d, ⟨⟩, -⟩
  exact .round ha (.step hfirst (by decide) .refl) hsettles
    (.round hb (.step hsecond (by decide) .refl) hfive (.done hdone))

open Expansion in
/-- The limit is one, and two expansions replace `(a)`, but it is analysed to 5. -/
theorem not_limitBoundsAnalysis : ¬ LimitBoundsAnalysis := by
  intro h
  have hlimit : twoStepWorld.expansionLimit site = 1 := by cbv
  obtain ⟨named, u, hfails⟩ := h site [] _ _ _ _ 2 reaches_two (by rw [hlimit]; decide)
  have hfive : Analysis.meaning site 20 (plainCall 100 (Symbol.bare "a")) ⟨twoStepWorld, []⟩ =
      .ok (.const (.int 5)) ⟨twoStepLater 2, []⟩ := by cbv
  have hresult : Finishes site [] (plainCall 100 (Symbol.bare "a")) twoStepWorld
      (.ok (.const (.int 5)) ⟨twoStepLater 2, []⟩) := ⟨trivial, 20, hfive⟩
  cases hfails.unique hresult

end SmallLisp
