import SmallLisp.Proofs.Reader.Completion
import SmallLisp.Proofs.Repl.Agreement

/-!
# What the loop waits for

More text can make a text of whole lines readable exactly when the first error in it is one that more text could
mend (`Reader.completable_iff`). The loop looks at all errors, and the reader goes on behind the first one; so it
waits in vain exactly when the first error is final and a later one is not (`Repl.waitsForMore_iff`).
-/

namespace SmallLisp

variable {here : Site} {depth : Nat} {w : World} {text : String} {e : Error}

namespace Reader

theorem firstError?_eq_none_iff {rs : List (Except Error Value)} :
    firstError? rs = none ↔ ∀ r ∈ rs, ∃ v, r = .ok v := by
  unfold firstError?
  rw [List.findSome?_eq_none_iff]
  refine forall₂_congr fun r _ => ?_
  cases r with
  | error e => exact ⟨nofun, nofun⟩
  | ok v => exact ⟨fun _ => ⟨v, rfl⟩, fun _ => rfl⟩

/-- Some text completes a text of whole lines just if the first error in it, if there is one, is one that more
text could mend. -/
theorem completable_iff (hw : HasCurrent here w) (hline : text.toList.getLast? = some '\n') :
    (∃ more, ReadsWell w here (text ++ more)) ↔
      ∀ e, firstError? (results w here text).1 = some e → e.isIncomplete = true := by
  constructor
  · rintro ⟨more, hmore⟩ e he
    -- The whole leaves nothing open, so its first part can be read on.
    obtain ⟨o, ho, -⟩ := opened_of_append (opened_of_readsWell hmore) (.inl (ends_of_line hline))
    obtain ⟨vs, ⟨-, hresults⟩ | ⟨-, e', he', hresults⟩, -⟩ := results_of_opened hw hline ho
    · have hnone : firstError? (vs.map .ok) = none := firstError?_eq_none_iff.mpr fun r hr => by
        obtain ⟨v, -, rfl⟩ := List.mem_map.mp hr
        exact ⟨v, rfl⟩
      rw [hresults, hnone] at he
      cases he
    · rw [hresults, firstError?_values] at he
      obtain rfl : e' = e := Option.some.inj he
      exact he'
  · intro hmends
    cases hfirst : firstError? (results w here text).1 with
    | none => exact ⟨"", by rw [String.append_empty]; exact firstError?_eq_none_iff.mp hfirst⟩
    | some e =>
      obtain ⟨o, -, hopened⟩ := open_of_firstError (stringsLast_lex text) hw hfirst (hmends e hfirst)
      obtain ⟨more, hmore⟩ := exists_opened_append hopened hline
      exact ⟨more, readsWell_of_opened hw hmore⟩

/-- No text completes it just if the first error in it is final. -/
theorem not_completable_iff (hw : HasCurrent here w) (hline : text.toList.getLast? = some '\n') :
    (¬ ∃ more, ReadsWell w here (text ++ more)) ↔
      ∃ e, firstError? (results w here text).1 = some e ∧ e.isIncomplete = false := by
  rw [completable_iff hw hline]
  simp only [not_forall, Bool.not_eq_true, exists_prop]

end Reader

open Reader (ReadsWell firstError? isPartway results)

namespace Repl

/-- The first error is one that no text mends, but a later one is not. -/
def Misled (rs : List (Except Error Value)) : Prop :=
  (∃ e, firstError? rs = some e ∧ e.isIncomplete = false) ∧ rs.any isPartway = true

/-- The loop waits for more lines behind a text only if some text completes it. A text that no other one completes
is evaluated at the line that ends it, which fails, and the error is reported. -/
structure WaitsForMore (here : Site) (w : World) (text : String) : Prop where
  completable : (isIncomplete w here text).1 = true → ∃ more, ReadsWell w here (text ++ more)
  reported : (¬ ∃ more, ReadsWell w here (text ++ more)) →
    ∀ (depth : Nat) (gathered line errors : String), gathered ++ line ++ "\n" = text →
      ∃ h u, Session.evalText here depth text (isIncomplete w here text).2 = .error h u ∧
        feed here depth ⟨w, gathered, errors⟩ line = ⟨u, "", errors ++ h.report⟩

/-- A text that cannot be completed is not evaluated with success. -/
theorem evalText_fails (hw : HasCurrent here w) (hnever : ¬ ∃ more, ReadsWell w here (text ++ more))
    (depth : Nat) (u : World) : ∃ h u', Session.evalText here depth text u = .error h u' := by
  cases hend : Session.evalText here depth text u with
  | error h u' => exact ⟨h, u', rfl⟩
  | ok v u' =>
    obtain ⟨p, hfold, -⟩ := of_run_map_ok hend
    have hwell : ReadsWell w here (text ++ "") := by
      rw [String.append_empty]
      exact Reader.readsWell_of_opened hw (Reader.opened_of_fold hfold)
    exact absurd ⟨"", hwell⟩ hnever

/-- The loop waits for more lines only where some text completes what it has gathered, unless it is misled by
an error behind a final one. Then it goes on gathering what no text completes, and reports nothing. -/
theorem waitsForMore_iff (hw : HasCurrent here w) (hline : text.toList.getLast? = some '\n') :
    (WaitsForMore here w text ↔ ¬ Misled (results w here text).1) ∧
    (Misled (results w here text).1 → (¬ ∃ more, ReadsWell w here (text ++ more)) ∧
      ∀ (depth : Nat) (gathered line errors : String), gathered ++ line ++ "\n" = text →
        feed here depth ⟨w, gathered, errors⟩ line = ⟨(isIncomplete w here text).2, text, errors⟩) := by
  have hfinal := Reader.not_completable_iff hw hline
  refine ⟨⟨fun hwaits hmis => hfinal.mpr hmis.1 (hwaits.completable hmis.2), fun hnot => ⟨?_, ?_⟩⟩,
    fun hmis => ⟨hfinal.mpr hmis.1, fun depth gathered line errors ht => ?_⟩⟩
  · -- The loop waits, so there is an error, and the first one is not final.
    intro hwaits
    by_contra hnever
    exact hnot ⟨hfinal.mp hnever, hwaits⟩
  · intro hnever depth gathered line errors ht
    have hcomplete : (isIncomplete w here text).1 = false :=
      Bool.eq_false_iff.mpr fun hwaits => hnot ⟨hfinal.mp hnever, hwaits⟩
    obtain ⟨h, u, heval⟩ := evalText_fails hw hnever depth (isIncomplete w here text).2
    exact ⟨h, u, heval, feed_of_error ht (Prod.ext hcomplete rfl) heval⟩
  · have hwaits : isIncomplete w here text = (true, (isIncomplete w here text).2) := Prod.ext hmis.2 rfl
    exact (feed_of_incomplete ht hwaits).1

/-- A closing bracket that closes nothing is reported at the end of its line. -/
theorem waitsForMore_closing :
    HasCurrent ⟨0, 0⟩ bareWorld ∧ (") 1\n").toList.getLast? = some '\n' ∧ WaitsForMore ⟨0, 0⟩ bareWorld ") 1\n" := by
  have hcurrent : HasCurrent ⟨0, 0⟩ bareWorld := by cbv
  have hcomplete : (results bareWorld ⟨0, 0⟩ ") 1\n").1.any isPartway = false := by cbv
  refine ⟨hcurrent, by decide, (waitsForMore_iff hcurrent (by decide)).1.mpr fun hmis => ?_⟩
  have hwaits := hmis.2
  rw [hcomplete] at hwaits
  cases hwaits

/-- What is said of the loop without regard to errors behind a final one. -/
def WaitsOnlyForMore : Prop :=
  ∀ (here : Site) (w : World) (text : String), HasCurrent here w → text.toList.getLast? = some '\n' →
    WaitsForMore here w text

/-- An escape that there is not, and behind it a quote that seems to open a string. -/
def badEscape : String := "\"\\q\"\n"

/-- The loop waits for the end of a string behind an escape that no text mends. -/
theorem not_waitsOnlyForMore : ¬ WaitsOnlyForMore := by
  intro h
  have hcurrent : HasCurrent ⟨0, 0⟩ bareWorld := by cbv
  have hfirst : firstError? (results bareWorld ⟨0, 0⟩ badEscape).1 = some (.lex ⟨2, .invalidEscape 'q'⟩) := by cbv
  have hwaits : (isIncomplete bareWorld ⟨0, 0⟩ badEscape).1 = true := by cbv
  have hline : badEscape.toList.getLast? = some '\n' := by decide
  have hmore := (h ⟨0, 0⟩ bareWorld badEscape hcurrent hline).completable hwaits
  exact (Reader.not_completable_iff hcurrent hline).mpr ⟨_, hfirst, rfl⟩ hmore

end Repl

end SmallLisp
