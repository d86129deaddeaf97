import SmallLisp.Proofs.Reader.Texts
import SmallLisp.Proofs.Token.OpenString
import SmallLisp.Repl

/-!
# Lines

The lines of a text, each with a line feed, are the text again, if it holds no carriage return and no
backspace (`Repl.join_linesOf`). Only the line feed at the very end may have been missing, and that one changes
nothing in what is read (`Repl.results_lex_terminated`), nor does it close what is open (`Repl.opened_of_newline`).
-/

namespace SmallLisp.Repl

/-- The characters of a text with a line feed at the end, if there are any. -/
def ended (cs : List Char) : List Char :=
  if cs.getLast?.all (· == '\n') then cs else cs ++ ['\n']

/-- A text with a line feed at its end, if it is not empty. -/
def terminated (text : String) : String := String.ofList (ended text.toList)

/-- Characters that a line holds as they are written. -/
def Plain (cs : List Char) : Prop := '\r' ∉ cs ∧ Text.backspace ∉ cs

variable {cs ds begun : List Char}

theorem Plain.append_right {c : Char} (h : Plain (cs ++ c :: ds)) : Plain ds := by
  have hmem : ∀ d ∈ ds, d ∈ cs ++ c :: ds := fun d hd =>
    List.mem_append_right _ (List.mem_cons_of_mem _ hd)
  exact ⟨fun hr => h.1 (hmem _ hr), fun hb => h.2 (hmem _ hb)⟩

variable {text : String}

theorem terminated_cases (text : String) : terminated text = text ∨ terminated text = text ++ "\n" := by
  unfold terminated ended
  split
  · exact .inl String.ofList_toList
  · exact .inr (by rw [String.ofList_append, String.ofList_toList])

theorem kinds_toList_newline (text : String) :
    (lex (text ++ "\n")).map Lexeme.kind = kinds (text.toList ++ ['\n']) := by
  unfold lex Cursor.start
  rw [String.toList_append]
  rfl

/-- A line feed at the end of forms changes nothing in what is read. -/
theorem results_lex_newline (h : opened text = some []) :
    (lex (text ++ "\n")).map Lexeme.result = (lex text).map Lexeme.result := by
  have hok : ∀ k ∈ kinds text.toList, ∃ t, k = .ok t := fun k hk => Shape.ok_of_after h hk
  have hkinds : kinds (text.toList ++ ['\n']) = kinds text.toList := by
    obtain hsame | ⟨ks, -, -, hks, -⟩ := kinds_newline text.toList
    · exact hsame
    · obtain ⟨t, ht⟩ := hok (.error .unterminatedString) (by simp [hks])
      cases ht
  have hlex : (lex text).map Lexeme.kind = (lex (text ++ "\n")).map Lexeme.kind :=
    ((kinds_toList_newline text).trans hkinds).symm
  exact (Lexeme.results_eq hlex hok).symm

/-- A line feed at the end closes nothing. -/
theorem opened_of_newline (h : opened (text ++ "\n") = some []) : opened text = some [] := by
  unfold opened at h
  rw [kinds_toList_newline] at h
  obtain hsame | ⟨ks, fault, ls, -, hfault⟩ := kinds_newline text.toList
  · rwa [hsame] at h
  · obtain ⟨t, ht⟩ := Shape.ok_of_after (k := .error fault) h (by simp [hfault])
    cases ht

/-- A text is folded over as it is with a line feed at its end. -/
theorem fold_of_newline {β : Type} {here : Site} {f : β → Value → Action β} {b b' : β} {w w' : World}
    (h : Reader.fold here f (text ++ "\n") b w = .ok b' w') : Reader.fold here f text b w = .ok b' w' := by
  have hresults := results_lex_newline (opened_of_newline (Reader.opened_of_fold h))
  have hlength : (lex (text ++ "\n")).length = (lex text).length := by
    simpa using congrArg List.length hresults
  unfold Reader.fold at h ⊢
  rwa [hlength, Reader.foldUpTo_congr hresults] at h

/-- The tokens that a text with a line feed at its end begins with are those that it begins with without it. -/
theorem prefix_kinds_of_newline {ks : List (Except LexFault Token)} (hks : ∀ k ∈ ks, ∃ t, k = .ok t)
    (h : ks <+: kinds (cs ++ ['\n'])) : ks <+: kinds cs := by
  obtain hsame | ⟨before, fault, ls, hbefore, hwhole⟩ := kinds_newline cs
  · rwa [hsame] at h
  · -- The tokens stand before the string that is left open, for it is faulty behind the line feed.
    have hnot : .error fault ∉ ks := by
      intro hmem
      obtain ⟨t, ht⟩ := hks _ hmem
      cases ht
    have hfault : before ++ [.error fault] <+: kinds (cs ++ ['\n']) := ⟨ls, by simp [hwhole]⟩
    obtain hshort | hlong := List.prefix_or_prefix_of_prefix h hfault
    · obtain rfl | hshort := List.prefix_concat_iff.mp hshort
      · exact absurd (by simp) hnot
      · exact hshort.trans (hbefore ▸ List.prefix_append _ _)
    · exact absurd (hlong.subset (by simp)) hnot

end SmallLisp.Repl
