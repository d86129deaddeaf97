import SmallLisp.Proofs.Analysis.Limit

/-!
# How expansion ends

The expansion of a form is the loop `expandLoop` over the expansion by one step (`expandWithin_eq_expandLoop`).
Run over steps that are counted, the loop does the same and knows in the end how often it has expanded a form by
one step (`countedWithin_eq`).

So it can be said of every form how its expansion ends, and after how many calls (`endsAfter_iff`): it
settles, or a step fails, or the limit is reached (`Ending`). The induction is on the steps that are left; what
one step does to an ending is `Ending.step`.
-/

namespace SmallLisp

variable {α σ : Type} {here : Site} {w u v : World} {form next final whole : Value} {n left : Nat}

/-! ## The loop -/

/-- The loop of expansion, for computations of any kind. -/
def expandLoop {m : Type → Type} [Monad m] (once : Value → m Value) (exceeded : m Value) :
    (left : Nat) → Value → m Value
  | left, form => do
    let expanded ← once form
    if expanded.identical form then pure form
    else
      match left with
      | 0 => exceeded
      | left + 1 => expandLoop once exceeded left expanded

/-- Expansion within a limit is that loop. -/
theorem expandWithin_eq_expandLoop (once : Value → Action Value) (whole : Value) (limit left : Nat)
    (form : Value) : expandWithin once whole limit left form =
      expandLoop once (Action.fail (.expansionLimit whole limit)) left form := by
  induction left generalizing form with
  | zero => rfl
  | succ left ih =>
    unfold expandWithin expandLoop
    simp only [ih]

section

variable {once : Value → EStateM Halt σ Value} {exceeded : EStateM Halt σ Value} {s t : σ}

theorem expandLoop_of_error {e : Halt} (h : once form s = .error e t) (left : Nat) :
    expandLoop once exceeded left form s = .error e t := by
  unfold expandLoop
  exact run_bind_of_error h

theorem expandLoop_of_same (h : once form s = .ok next t) (hsame : next.identical form = true)
    (left : Nat) : expandLoop once exceeded left form s = .ok form t := by
  unfold expandLoop
  rw [run_bind_of_ok h, if_pos hsame]
  rfl

theorem expandLoop_zero (h : once form s = .ok next t) (hchanged : next.identical form = false) :
    expandLoop once exceeded 0 form s = exceeded t := by
  unfold expandLoop
  rw [run_bind_of_ok h, hchanged]
  rfl

theorem expandLoop_succ (h : once form s = .ok next t) (hchanged : next.identical form = false)
    (left : Nat) :
    expandLoop once exceeded (left + 1) form s = expandLoop once exceeded left next t := by
  rw [expandLoop, run_bind_of_ok h, hchanged]
  rfl

end

/-! ## Counting calls -/

/-- A world, and how many calls have been counted. -/
structure Tally where
  /-- The world. -/
  world : World
  /-- How many calls have been counted. -/
  calls : Nat

/-- A result, with a number of calls beside the world it leaves. -/
def tallied (calls : Nat) : EStateM.Result Halt World α → EStateM.Result Halt Tally α
  | .ok x w => .ok x ⟨w, calls⟩
  | .error e w => .error e ⟨w, calls⟩

/-- An action counted as one call, however it ends. -/
def counted (a : Action α) : EStateM Halt Tally α := fun t => tallied (t.calls + 1) (a t.world)

/-- An action that is not counted. -/
def uncounted (a : Action α) : EStateM Halt Tally α := fun t => tallied t.calls (a t.world)

/-- Expands a form until it settles, within a limit, and counts the calls of the one-step expansion. -/
def countedWithin (here : Site) (depth : Nat) (whole : Value) (limit left : Nat) (form : Value) :
    EStateM Halt Tally Value :=
  expandLoop (fun form => counted (expandOnce here depth form))
    (uncounted (Action.fail (.expansionLimit whole limit))) left form

/-- The expansion of a form within the limit of the registry, counted. -/
def countedExpansion (here : Site) (depth : Nat) (form : Value) : EStateM Halt Tally Value := do
  let limit ← uncounted (Action.view (·.expansionLimit here))
  countedWithin here depth form limit limit form

theorem tallied_injective {calls calls' : Nat} {r r' : EStateM.Result Halt World α}
    (h : tallied calls r = tallied calls' r') : calls = calls' ∧ r = r' := by
  cases r <;> cases r' <;> cases h <;> exact ⟨rfl, rfl⟩

theorem counted_of_ok {a : Action α} {x : α} {calls : Nat} (h : a w = .ok x u) :
    counted a ⟨w, calls⟩ = .ok x ⟨u, calls + 1⟩ := by
  unfold counted
  dsimp only
  rw [h]
  rfl

theorem counted_of_error {a : Action α} {e : Halt} {calls : Nat} (h : a w = .error e u) :
    counted a ⟨w, calls⟩ = .error e ⟨u, calls + 1⟩ := by
  unfold counted
  dsimp only
  rw [h]
  rfl

/-! ## Endings -/

/-- With enough depth the expansion of a form by one step ends in this way. -/
def ExpandsOnce (here : Site) (form : Value) (w : World) (r : EStateM.Result Halt World Value) : Prop :=
  Finished r ∧ ∃ depth, expandOnce here depth form w = r

/-- With enough depth the expansion of a form ends in this way, after so many calls of the one-step
expansion. -/
def EndsAfter (here : Site) (form : Value) (w : World) (r : EStateM.Result Halt World Value)
    (calls : Nat) : Prop :=
  Finished r ∧ ∃ least, ∀ depth ≥ least, expandFully here depth form w = r ∧
    countedExpansion here depth form ⟨w, 0⟩ = tallied calls r

/-- How the expansion of a form ends that may take so many more steps, and after how many calls. The forms in
between are those of `Leads`: each is what one step makes of the form before it, in the world that the step before
has left, and is not identical to that form. -/
inductive Ending (here : Site) (exceeded : Error) (left : Nat) (form : Value) (w : World) :
    EStateM.Result Halt World Value → Nat → Prop
  /-- The next step gives back the form it was given. -/
  | settled {n : Nat} {final next : Value} {v u : World} (hn : n ≤ left)
    (hleads : Leads here n form w final v) (honce : ExpandsOnce here final v (.ok next u))
    (hsame : next.identical final = true) : Ending here exceeded left form w (.ok final u) (n + 1)
  /-- The next step fails. -/
  | failed {n : Nat} {last : Value} {v u : World} {e : Halt} (hn : n ≤ left)
    (hleads : Leads here n form w last v) (honce : ExpandsOnce here last v (.error e u)) :
    Ending here exceeded left form w (.error e u) (n + 1)
  /-- One step more than may be taken changes the form. -/
  | exceeded {last : Value} {u : World} (hleads : Leads here (left + 1) form w last u) :
    Ending here exceeded left form w (.error (.error exceeded) u) (left + 1)

/-- A step in front of an ending is one call more. -/
theorem Ending.step {exceeded : Error} {depth calls : Nat} {r : EStateM.Result Halt World Value}
    (honce : expandOnce here depth form w = .ok next u) (hchanged : next.identical form = false)
    (h : Ending here exceeded left next u r calls) :
    Ending here exceeded (left + 1) form w r (calls + 1) := by
  cases h with
  | settled hn hleads hfinal hsame =>
    exact .settled (Nat.succ_le_succ hn) (.step honce hchanged hleads) hfinal hsame
  | failed hn hleads hlast => exact .failed (Nat.succ_le_succ hn) (.step honce hchanged hleads) hlast
  | exceeded hleads => exact .exceeded (.step honce hchanged hleads)

/-- The counted loop does what expansion does, and has one of the endings if it comes to an end. -/
theorem countedWithin_eq (here : Site) (depth : Nat) (whole : Value) (limit left : Nat) (form : Value)
    (w : World) (calls : Nat) :
    ∃ more, countedWithin here depth whole limit left form ⟨w, calls⟩ =
        tallied (calls + more) (expandWithin (expandOnce here depth) whole limit left form w) ∧
      (Finished (expandWithin (expandOnce here depth) whole limit left form w) →
        Ending here (.expansionLimit whole limit) left form w
          (expandWithin (expandOnce here depth) whole limit left form w) more) := by
  rw [countedWithin]
  cases honce : expandOnce here depth form w with
  | error e u =>
    rw [expandLoop_of_error (counted_of_error honce), expandWithin_of_error honce]
    exact ⟨1, rfl, fun he => .failed (Nat.zero_le left) .refl ⟨he, depth, honce⟩⟩
  | ok next u =>
    cases hsame : next.identical form with
    | true =>
      rw [expandLoop_of_same (counted_of_ok honce) hsame, expandWithin_of_same honce hsame]
      exact ⟨1, rfl, fun _ => .settled (Nat.zero_le left) .refl ⟨trivial, depth, honce⟩ hsame⟩
    | false =>
      cases left with
      | zero =>
        rw [expandLoop_zero (counted_of_ok honce) hsame, expandWithin_zero honce hsame]
        exact ⟨1, rfl, fun _ => .exceeded (.step honce hsame .refl)⟩
      | succ left =>
        rw [expandLoop_succ (counted_of_ok honce) hsame, expandWithin_succ honce hsame]
        obtain ⟨more, hcounted, hending⟩ :=
          countedWithin_eq here depth whole limit left next u (calls + 1)
        refine ⟨more + 1, hcounted.trans ?_, fun hr => (hending hr).step honce hsame⟩
        rw [Nat.add_right_comm, Nat.add_assoc]

/-- The last step of a way. -/
theorem Leads.last (h : Leads here (n + 1) form w final v) :
    ∃ last u, Leads here n form w last u ∧ ExpandsOnce here last u (.ok final v) ∧
      final.identical last = false := by
  induction n generalizing form w with
  | zero =>
    obtain _ | ⟨honce, hchanged, ⟨⟩⟩ := h
    exact ⟨form, w, .refl, ⟨trivial, _, honce⟩, hchanged⟩
  | succ n ih =>
    obtain _ | ⟨honce, hchanged, hrest⟩ := h
    obtain ⟨last, u, hleads, hlast⟩ := ih hrest
    exact ⟨last, u, .step honce hchanged hleads, hlast⟩

/-- With enough depth a step ends in the way in which it ends. -/
theorem ExpandsOnce.enough {r : EStateM.Result Halt World Value} (h : ExpandsOnce here form w r) :
    ∃ least, ∀ depth ≥ least, expandOnce here depth form w = r := by
  obtain ⟨hr, least, rfl⟩ := h
  exact ⟨least, fun depth hdepth => expandOnce_deeper hdepth hr⟩

/-- With enough depth the loop goes the way that single steps lead, and counts them. -/
theorem countedWithin_of_leads (h : Leads here n form w final v) (whole : Value) (limit : Nat) :
    ∃ least, ∀ depth ≥ least, ∀ left calls,
      countedWithin here depth whole limit (left + n) form ⟨w, calls⟩ =
        countedWithin here depth whole limit left final ⟨v, calls + n⟩ := by
  induction h with
  | refl => exact ⟨0, fun _ _ _ _ => rfl⟩
  | @step n d form next final w u v honce hchanged _ ih =>
    obtain ⟨least, hrest⟩ := ih
    refine ⟨max d least, fun depth hdepth left calls => ?_⟩
    have honce' : expandOnce here depth form w = .ok next u :=
      (expandOnce_deeper (Nat.le_trans (Nat.le_max_left ..) hdepth) (by rw [honce]; trivial)).trans honce
    calc countedWithin here depth whole limit (left + n + 1) form ⟨w, calls⟩
      _ = countedWithin here depth whole limit (left + n) next ⟨u, calls + 1⟩ :=
        expandLoop_succ (counted_of_ok honce') hchanged _
      _ = countedWithin here depth whole limit left final ⟨v, calls + 1 + n⟩ :=
        hrest depth (Nat.le_trans (Nat.le_max_right ..) hdepth) left (calls + 1)
      _ = countedWithin here depth whole limit left final ⟨v, calls + (n + 1)⟩ := by
        rw [Nat.add_right_comm, Nat.add_assoc]

/-- With enough depth the loop comes to a form that single steps lead to, and does one step more from there. -/
theorem countedWithin_then (hn : n ≤ left) (hleads : Leads here n form w final v)
    {r : EStateM.Result Halt World Value} (honce : ExpandsOnce here final v r) (whole : Value) (limit : Nat) :
    ∃ least, ∀ depth ≥ least, expandOnce here depth final v = r ∧
      countedWithin here depth whole limit left form ⟨w, 0⟩ =
        countedWithin here depth whole limit (left - n) final ⟨v, n⟩ := by
  obtain ⟨d, hloop⟩ := countedWithin_of_leads hleads whole limit
  obtain ⟨d', honce⟩ := honce.enough
  refine ⟨max d d', fun depth hdepth => ⟨honce depth (Nat.le_trans (Nat.le_max_right ..) hdepth), ?_⟩⟩
  have hloop := hloop depth (Nat.le_trans (Nat.le_max_left ..) hdepth) (left - n) 0
  rwa [Nat.sub_add_cancel hn, Nat.zero_add] at hloop

/-- Each of the endings is come to with enough depth. -/
theorem Ending.enough {limit calls : Nat} {r : EStateM.Result Halt World Value}
    (h : Ending here (.expansionLimit whole limit) left form w r calls) :
    ∃ least, ∀ depth ≥ least,
      countedWithin here depth whole limit left form ⟨w, 0⟩ = tallied calls r := by
  cases h with
  | @settled n final next v u hn hleads honce hsame =>
    obtain ⟨least, hthen⟩ := countedWithin_then hn hleads honce whole limit
    refine ⟨least, fun depth hdepth => ?_⟩
    obtain ⟨honce, hloop⟩ := hthen depth hdepth
    exact hloop.trans (expandLoop_of_same (counted_of_ok honce) hsame _)
  | @failed n last v u e hn hleads honce =>
    obtain ⟨least, hthen⟩ := countedWithin_then hn hleads honce whole limit
    refine ⟨least, fun depth hdepth => ?_⟩
    obtain ⟨honce, hloop⟩ := hthen depth hdepth
    exact hloop.trans (expandLoop_of_error (counted_of_error honce) _)
  | @exceeded last u hleads =>
    -- All the steps that are left are used up when the last one changes the form once more.
    obtain ⟨before, v, hleads, honce, hchanged⟩ := hleads.last
    obtain ⟨least, hthen⟩ := countedWithin_then (Nat.le_refl left) hleads honce whole limit
    refine ⟨least, fun depth hdepth => ?_⟩
    obtain ⟨honce, hloop⟩ := hthen depth hdepth
    rw [Nat.sub_self] at hloop
    have hlimit : countedWithin here depth whole limit 0 before ⟨v, left⟩ =
        uncounted (Action.fail (.expansionLimit whole limit)) ⟨u, left + 1⟩ :=
      expandLoop_zero (counted_of_ok honce) hchanged
    exact hloop.trans hlimit

theorem Ending.finished {exceeded : Error} {calls : Nat} {r : EStateM.Result Halt World Value}
    (h : Ending here exceeded left form w r calls) : Finished r := by
  cases h with
  | settled => trivial
  | failed _ _ honce => exact honce.1
  | exceeded => trivial

/-- The expansion of a form ends in just one of three ways, in the world that its last step leaves. It gives
the first form that a step leaves as it is, if at most as many steps as the limit allows come before; it fails
like the first step that fails; and where one step more than the limit allows has changed the form, it fails
with the form that was to be expanded and the limit. Every step is one call, the last one as well. -/
theorem endsAfter_iff (here : Site) (form : Value) (w : World) (r : EStateM.Result Halt World Value)
    (calls : Nat) :
    (EndsAfter here form w r calls ↔
      Ending here (.expansionLimit form (w.expansionLimit here)) (w.expansionLimit here) form w r calls) ∧
    (Error.expansionLimit form (w.expansionLimit here)).message = "macroexpansion of " ++ form.text ++
      " did not settle after " ++ toString (w.expansionLimit here) ++ " steps" := by
  have hcounts : ∀ depth, ∃ calls, countedExpansion here depth form ⟨w, 0⟩ =
      tallied (0 + calls) (expandFully here depth form w) ∧ (Finished (expandFully here depth form w) →
        Ending here (.expansionLimit form (w.expansionLimit here)) (w.expansionLimit here) form w
          (expandFully here depth form w) calls) := fun depth =>
    countedWithin_eq here depth form (w.expansionLimit here) (w.expansionLimit here) form w 0
  refine ⟨⟨?_, ?_⟩, rfl⟩
  · rintro ⟨hr, least, h⟩
    obtain ⟨rfl, hcalls⟩ := h least (Nat.le_refl least)
    obtain ⟨calls', hcounted, hending⟩ := hcounts least
    obtain ⟨rfl, -⟩ := tallied_injective (hcalls.symm.trans hcounted)
    rw [Nat.zero_add]
    exact hending hr
  · intro hending
    obtain ⟨least, hcounted⟩ := hending.enough
    refine ⟨hending.finished, least, fun depth hdepth => ?_⟩
    have hcounted := hcounted depth hdepth
    obtain ⟨calls', hfully, -⟩ := hcounts depth
    exact ⟨(tallied_injective (hfully.symm.trans hcounted)).2, hcounted⟩

open Expansion in
/-- The call `(m)` settles at the form it expands to, which takes two calls. -/
example : countedExpansion site 20 (namedCall 5) ⟨namedWorld, 0⟩ = .ok (choice 1) ⟨namedWorld, 2⟩ := by cbv

end SmallLisp
