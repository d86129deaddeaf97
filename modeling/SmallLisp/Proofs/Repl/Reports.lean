import SmallLisp.Proofs.Reader.Completion
import SmallLisp.Proofs.Repl.Agreement

/-!
# What the loop reports

A text that cannot be evaluated is typed into the loop line by line. The loop reports an error, unless it comes to
the end of the lines while it still gathers a last part of the text (`Repl.reports_iff`): this part is dropped,
and whatever is wrong in it goes unreported.

As long as nothing is reported, the loop follows the evaluation of the text (`Repl.reports_or_drops`): each piece
that it has evaluated with success is evaluated with success in the text as well, for the two worlds differ in
keywords only.
-/

namespace SmallLisp

variable {here : Site} {depth : Nat} {w w' u u' : World} {text : String}

theorem of_movedEnd_error {σ α : Type} {n : Nat} {r : EStateM.Result Halt σ α} {e : Error} {s : σ}
    (h : movedEnd n r = .error (.error e) s) : ∃ e', r = .error (.error e') s := by
  match r with
  | .ok _ _ => cases h
  | .error .outOfDepth _ => cases h
  | .error (.error e') _ =>
    cases h
    exact ⟨e', rfl⟩

namespace Session

variable {p p' : Progress} {v : Option Value} {rest : String}

/-! ## There and back -/

/-- A thread that has used the registry has done so after a text as well. -/
theorem hasState_of_fold (hw : HasState here w) (hp : p.scopes = [])
    (h : Reader.fold here (evalNext here depth) text p w = .ok p' w') : HasState here w' := by
  have hkept := World.growing here (w.registry here.registry)
  have hsettled : hkept.invariant.lockstep.Settled p := ⟨hp, fun v _ => hkept.allows v⟩
  have hgrows := (Invariant.of_ok (Lockstep.evalLexemes trivial (Nat.le_refl depth) _ _ hsettled) (.refl _) h).2
  obtain ⟨state, hstate⟩ := Option.isSome_iff_exists.mp hw
  exact Option.isSome_iff_exists.mpr ⟨state, hgrows.threads _ _ hstate⟩

/-- What is evaluated by itself is evaluated in the middle of a text in the same way, and also in a world that knows
fewer keywords. -/
theorem fold_of_evalText (hu : w.Informed u) (hp : p.scopes = [])
    (h : evalText here depth text u = .ok v u') :
    ∃ p' w', Reader.fold here (evalNext here depth) text p w = .ok p' w' ∧ w'.Informed u' ∧ p'.scopes = [] := by
  obtain ⟨q, hq, -⟩ := of_run_map_ok h
  have hboth := (World.informed here).flip.fold_start trivial (Nat.le_refl depth) text u w hu
  rw [hq] at hboth
  cases hend : Reader.fold here (evalNext here depth) text .start w with
  | error e w' =>
    rw [hend] at hboth
    cases hboth
  | ok q' w' =>
    rw [hend] at hboth
    obtain ⟨hsettled, hw'⟩ | _ | _ := hboth
    refine ⟨q.behind p.last, w', ?_, hw', hsettled.scopes⟩
    rw [Progress.eq_behind hp, fold_behind]
    exact run_map_of_ok hend

/-- What runs short of depth by itself does so in the middle of a text. -/
theorem fold_of_outOfDepth (hu : w.Informed u) (hp : p.scopes = [])
    (h : evalText here depth text u = .error .outOfDepth u') :
    ∃ w', Reader.fold here (evalNext here depth) text p w = .error .outOfDepth w' := by
  have hboth := (World.informed here).fold_start trivial (Nat.le_refl depth) text w u hu
  rw [of_run_map_error h] at hboth
  cases hend : Reader.fold here (evalNext here depth) text .start w with
  | ok q w' =>
    rw [hend] at hboth
    cases hboth
  | error e w' =>
    rw [hend] at hboth
    cases hboth
    refine ⟨w', ?_⟩
    rw [Progress.eq_behind hp, fold_behind]
    exact run_map_of_error hend

/-- A text that goes on behind a line that has been evaluated with success. -/
theorem fold_line {line : String} (hp : p.scopes = [])
    (h : Reader.fold here (evalNext here depth) (line ++ "\n") p w = .ok p' w') (rest : String) :
    Reader.fold here (evalNext here depth) (line ++ "\n" ++ rest) p w =
      movedEnd (line.length + 1) (Reader.fold here (evalNext here depth) rest p' w') :=
  fold_newline hp (Repl.fold_of_newline h)

/-- Where a line runs short of depth, so does a text that begins with it. -/
theorem fold_line_outOfDepth {line : String}
    (h : Reader.fold here (evalNext here depth) (line ++ "\n") p w = .error .outOfDepth w') (rest : String) :
    Reader.fold here (evalNext here depth) (line ++ "\n" ++ rest) p w = .error .outOfDepth w' := by
  have hline : (line ++ "\n").toList.getLast? = some '\n' := by simp
  exact Reader.fold_outOfDepth h fun ks hks hmem => Reader.prefix_kinds_append hline hks hmem rest

theorem fold_empty (p : Progress) (w : World) : Reader.fold here (evalNext here depth) "" p w = .ok p w := rfl

end Session

open Session (Progress evalNext)

namespace Repl

variable {e : Error} {p : Progress} {lines : List String} {gathered errors : String}

/-! ## A run of the loop -/

/-- What has been reported stays reported. -/
theorem errors_feed (here : Site) (depth : Nat) (repl : Repl) (line : String) :
    ∃ more, (feed here depth repl line).errors = repl.errors ++ more := by
  unfold feed
  dsimp only
  split
  · exact ⟨"", String.append_empty.symm⟩
  · split
    · exact ⟨"", String.append_empty.symm⟩
    · unfold evalPrint
      split
      · exact ⟨"", String.append_empty.symm⟩
      · exact ⟨"", String.append_empty.symm⟩
      · exact ⟨_, rfl⟩

theorem errors_foldl (depth : Nat) (repl : Repl) (lines : List String) :
    ∃ more, (lines.foldl (feed here depth) repl).errors = repl.errors ++ more := by
  induction lines generalizing repl with
  | nil => exact ⟨"", String.append_empty.symm⟩
  | cons line lines ih =>
    obtain ⟨first, hfirst⟩ := errors_feed here depth repl line
    obtain ⟨more, hmore⟩ := ih (feed here depth repl line)
    exact ⟨first ++ more, by rw [List.foldl_cons, hmore, hfirst, String.append_assoc]⟩

/-- At the end of the lines of a text the loop still gathers a last part of it, of which it has found that it stops
partway. All that comes before has been evaluated with success. -/
structure Drops (here : Site) (depth : Nat) (p : Progress) (w : World) (text : String) (done : Repl) : Prop where
  waits : ∃ v, isIncomplete v here done.gathered = (true, done.world)
  before : ∃ before p' w', before ++ done.gathered = text ∧
    Reader.fold here (evalNext here depth) before p w = .ok p' w' ∧ w'.Informed done.world

/-- What is dropped of the rest of a text is dropped of the whole, if the lines before it have been evaluated. -/
theorem Drops.behind {p₁ : Progress} {w₁ : World} {line rest : String} {done : Repl}
    (h : Drops here depth p₁ w₁ rest done) (hp : p.scopes = [])
    (hfirst : Reader.fold here (evalNext here depth) (line ++ "\n") p w = .ok p₁ w₁) :
    Drops here depth p w (line ++ "\n" ++ rest) done := by
  obtain ⟨hwaits, before, p₂, w₂, rfl, hbefore, hw₂⟩ := h
  refine ⟨hwaits, line ++ "\n" ++ before, p₂, w₂, String.append_assoc, ?_, hw₂⟩
  rw [Session.fold_line hp hfirst, hbefore]
  rfl

/-- The loop takes lines in while a text that begins with what it has gathered cannot be evaluated: it reports an
error, or drops the end of the text. -/
theorem reports_or_drops (hw : HasState here w) (hu : w.Informed u) (hp : p.scopes = [])
    (hg : gathered = "" ∨ ∃ v, isIncomplete v here gathered = (true, u))
    (ht : gathered ++ String.join (lines.map (· ++ "\n")) = text)
    (hfails : Reader.fold here (evalNext here depth) text p w = .error (.error e) w') :
    (∃ e' more, (lines.foldl (feed here depth) ⟨u, gathered, errors⟩).errors =
      errors ++ Halt.report (.error e') ++ more) ∨
    (lines.foldl (feed here depth) ⟨u, gathered, errors⟩).errors = errors ∧
      Drops here depth p w text (lines.foldl (feed here depth) ⟨u, gathered, errors⟩) := by
  induction lines generalizing text p w u gathered e with
  | nil =>
    obtain rfl : gathered = text := by simpa using ht
    refine .inr ⟨rfl, hg.resolve_left ?_, "", p, w, String.empty_append, Session.fold_empty p w, hu⟩
    rintro rfl
    rw [Session.fold_empty] at hfails
    cases hfails
  | cons line lines ih =>
    obtain ⟨begun, hbegun⟩ : ∃ begun, gathered ++ line = begun := ⟨_, rfl⟩
    obtain ⟨rest, hrest⟩ : ∃ rest, String.join (lines.map (· ++ "\n")) = rest := ⟨_, rfl⟩
    have hpiece : gathered ++ line ++ "\n" = begun ++ "\n" := by rw [hbegun]
    obtain rfl : begun ++ "\n" ++ rest = text := by
      rw [← ht, ← hbegun, ← hrest, gathered_append_join]
    rw [List.foldl_cons]
    have hlearnt := informed_isIncomplete (hw.informed hu) (begun ++ "\n")
    cases hinc : isIncomplete u here (begun ++ "\n") with
    | mk incomplete u₁ =>
      rw [hinc] at hlearnt
      replace hlearnt := hu.trans hlearnt
      cases incomplete with
      | true =>
        -- The loop goes on gathering.
        have hfeed : feed here depth ⟨u, gathered, errors⟩ line = ⟨u₁, begun ++ "\n", errors⟩ :=
          (feed_of_incomplete hpiece hinc).1
        rw [hfeed]
        exact ih hw hlearnt hp (.inr ⟨u, hinc⟩) (congrArg (begun ++ "\n" ++ ·) hrest) hfails
      | false =>
        cases heval : Session.evalText here depth (begun ++ "\n") u₁ with
        | ok v u₂ =>
          -- The piece is evaluated with success in the text as well, so the rest of it is what cannot be.
          obtain ⟨p₁, w₁, hfirst, hw₁, hp₁⟩ := Session.fold_of_evalText hlearnt hp heval
          obtain ⟨e₁, hfails₁⟩ : ∃ e₁, Reader.fold here (evalNext here depth) rest p₁ w₁ = .error (.error e₁) w' :=
            of_movedEnd_error ((Session.fold_line hp hfirst rest).symm.trans hfails)
          have hfeed : feed here depth ⟨u, gathered, errors⟩ line = ⟨display u₂ v, "", errors⟩ :=
            (feed_of_value hpiece hinc heval).1
          rw [hfeed]
          have hstate := Session.hasState_of_fold hw hp hfirst
          obtain hreports | ⟨herrors, hdrops⟩ :=
            ih hstate (informed_display hw₁ v) hp₁ (.inl rfl) (by rw [String.empty_append, hrest]) hfails₁
          · exact .inl hreports
          · exact .inr ⟨herrors, hdrops.behind hp hfirst⟩
        | error h u₂ =>
          cases h with
          | error e' =>
            left
            have hfeed : feed here depth ⟨u, gathered, errors⟩ line =
                ⟨u₂, "", errors ++ Halt.report (.error e')⟩ := feed_of_error hpiece hinc heval
            rw [hfeed]
            obtain ⟨more, hmore⟩ := errors_foldl depth ⟨u₂, "", errors ++ Halt.report (.error e')⟩ lines
            exact ⟨e', more, hmore⟩
          | outOfDepth =>
            -- Then the whole text would run short of depth.
            obtain ⟨w₁, hshort⟩ := Session.fold_of_outOfDepth hlearnt hp heval
            rw [Session.fold_line_outOfDepth hshort rest] at hfails
            cases hfails

/-! ## All lines of a text -/

/-- A text that cannot be evaluated cannot be with a line feed at its end either. -/
theorem fold_terminated_fails (hfails : Session.evalText here depth text w = .error (.error e) w') :
    ∃ e' w₁, Reader.fold here (evalNext here depth) (terminated text) .start w = .error (.error e') w₁ := by
  have htext := of_run_map_error hfails
  obtain heq | heq := terminated_cases text
  · rw [heq]
    exact ⟨e, w', htext⟩
  · rw [heq]
    cases hend : Reader.fold here (evalNext here depth) (text ++ "\n") .start w with
    | ok p u =>
      rw [fold_of_newline hend] at htext
      cases htext
    | error h u =>
      cases h with
      | error e' => exact ⟨e', u, rfl⟩
      | outOfDepth =>
        have hshort := Reader.fold_outOfDepth hend fun ks hks h => by
          rw [String.toList_append] at h
          exact prefix_kinds_of_newline hks h
        rw [hshort] at htext
        cases htext

/-- An error is reported after what has been reported before. -/
def Reported (before after : String) : Prop :=
  ∃ e more, after = before ++ Halt.report (.error e) ++ more

theorem not_reported_self (errors : String) : ¬ Reported errors errors := by
  rintro ⟨e, more, h⟩
  have hlength := congrArg String.length h
  have hreport : 0 < (Halt.report (.error e)).length := by
    unfold Halt.report
    rw [String.length_append, String.length_append]
    have hhead : "Error: ".length = 7 := rfl
    omega
  rw [String.length_append, String.length_append] at hlength
  omega

/-- A text that cannot be evaluated is typed into the loop line by line. The loop reports an error, except where it
drops the end of the text. -/
theorem reports_iff (hw : HasCurrent here w)
    (hlines : String.join (lines.map (· ++ "\n")) = terminated text)
    (hfails : (Session.evalText here depth text).run w = .error (.error e) w') (errors : String) :
    Reported errors (lines.foldl (feed here depth) ⟨w, "", errors⟩).errors ↔
      ¬ ((lines.foldl (feed here depth) ⟨w, "", errors⟩).errors = errors ∧
        Drops here depth .start w (terminated text) (lines.foldl (feed here depth) ⟨w, "", errors⟩)) := by
  obtain ⟨e₁, w₁, hfails₁⟩ := fold_terminated_fails hfails
  constructor
  · rintro hreports ⟨herrors, -⟩
    rw [herrors] at hreports
    exact not_reported_self errors hreports
  · intro hkeeps
    have hlines' : "" ++ String.join (lines.map (· ++ "\n")) = terminated text := by
      rw [String.empty_append, hlines]
    obtain hreports | hdrops := reports_or_drops hw.hasState (.refl w) rfl (.inl rfl) hlines' hfails₁
    · exact hreports
    · exact absurd hdrops hkeeps

/-- Two lines, of which the second one closes a bracket too many. -/
def closedTwice : String := "(\n) )"

theorem isIncomplete_empty (w : World) (here : Site) : (isIncomplete w here "").1 = false := rfl

/-- The loop reports the bracket. -/
theorem reports_closedTwice :
    HasCurrent ⟨0, 0⟩ bareWorld ∧ String.join (["(", ") )"].map (· ++ "\n")) = terminated closedTwice ∧
      ∃ e w', (Session.evalText ⟨0, 0⟩ 30 closedTwice).run bareWorld = .error (.error e) w' ∧
        Reported "" (["(", ") )"].foldl (feed ⟨0, 0⟩ 30) ⟨bareWorld, "", ""⟩).errors := by
  have hcurrent : HasCurrent ⟨0, 0⟩ bareWorld := by cbv
  have hlines : String.join (["(", ") )"].map (· ++ "\n")) = terminated closedTwice := by cbv
  obtain ⟨w', hw'⟩ : ∃ w', (Session.evalText ⟨0, 0⟩ 30 closedTwice).run bareWorld =
      .error (.error (.parse (.unexpectedClosing .round))) w' := by
    refine ⟨(Session.evalText ⟨0, 0⟩ 30 closedTwice).after bareWorld, ?_⟩
    cbv
  have hgathered : (["(", ") )"].foldl (feed ⟨0, 0⟩ 30) ⟨bareWorld, "", ""⟩).gathered = "" := by
    have hwaits : isIncomplete bareWorld ⟨0, 0⟩ "(\n" = (true, bareWorld) := by cbv
    have hcomplete : isIncomplete bareWorld ⟨0, 0⟩ "(\n) )\n" = (false, bareWorld) := by cbv
    obtain ⟨u, hu⟩ : ∃ u, Session.evalText ⟨0, 0⟩ 30 "(\n) )\n" bareWorld =
        .error (.error (.parse (.unexpectedClosing .round))) u := by
      refine ⟨(Session.evalText ⟨0, 0⟩ 30 "(\n) )\n").after bareWorld, ?_⟩
      cbv
    have hfirst : feed ⟨0, 0⟩ 30 ⟨bareWorld, "", ""⟩ "(" = ⟨bareWorld, "(\n", ""⟩ :=
      (feed_of_incomplete (by cbv) hwaits).1
    have hsecond : feed ⟨0, 0⟩ 30 ⟨bareWorld, "(\n", ""⟩ ") )" = ⟨u, "", _⟩ := feed_of_error (by cbv) hcomplete hu
    rw [List.foldl_cons, hfirst, List.foldl_cons, hsecond, List.foldl_nil]
  refine ⟨hcurrent, hlines, _, w', hw', (reports_iff hcurrent hlines hw' "").mpr ?_⟩
  rintro ⟨-, ⟨v, hwaits⟩, -⟩
  rw [hgathered] at hwaits
  have hcomplete := isIncomplete_empty v ⟨0, 0⟩
  rw [hwaits] at hcomplete
  cases hcomplete

/-- What is said of the loop without regard to what it still gathers at the end of the lines. -/
def ReportsErrors : Prop :=
  ∀ (here : Site) (depth : Nat) (w : World) (text : String) (lines : List String) (e : Error) (w' : World),
    HasCurrent here w → '\r' ∉ text.toList → String.join (lines.map (· ++ "\n")) = terminated text →
      (Session.evalText here depth text).run w = .error (.error e) w' →
        Reported "" (lines.foldl (feed here depth) ⟨w, "", ""⟩).errors

/-- A definition that breaks off is dropped at the end of the lines. -/
theorem not_reportsErrors : ¬ ReportsErrors := by
  intro h
  have hcurrent : HasCurrent ⟨0, 0⟩ bareWorld := by cbv
  obtain ⟨w', hw'⟩ : ∃ w', (Session.evalText ⟨0, 0⟩ 30 "(def").run bareWorld =
      .error (.error (.parse (.endOfInput (some .round)))) w' := by
    refine ⟨(Session.evalText ⟨0, 0⟩ 30 "(def").after bareWorld, ?_⟩
    cbv
  have hreports := h ⟨0, 0⟩ 30 bareWorld "(def" ["(def"] _ w' hcurrent (by decide) (by cbv) hw'
  have herrors : (["(def"].foldl (feed ⟨0, 0⟩ 30) ⟨bareWorld, "", ""⟩).errors = "" := by cbv
  rw [herrors] at hreports
  exact not_reported_self "" hreports

end Repl

end SmallLisp
