import SmallLisp.Proofs.Reader.Forms

/-!
# Texts one after the other

What a text leaves open (`opened`) decides how it can be cut at the end of a line. If all of it is forms, its
first part may end inside a form, and then something is open. Otherwise both parts are forms, and folding over
the whole is folding over the one and then over the other (`Reader.fold_append`). A fold that runs short of depth
does so in one of the forms that the text begins with, whatever stands behind it (`Reader.fold_outOfDepth`).
-/

namespace SmallLisp

/-- What a text leaves open, unless there is a fault in it that no more text could mend. -/
def opened (text : String) : Option Shape := Shape.after [] ((lex text).map Lexeme.kind)

namespace Shape

variable {s o : Shape} {k : Except LexFault Token} {ks ls : List (Except LexFault Token)}

/-- Nothing comes after an open string. -/
theorem of_after_string (h : after (.string :: s) ks = some o) : ks = [] ∧ o = .string :: s := by
  cases ks with
  | nil => exact ⟨rfl, (Option.some.inj h).symm⟩
  | cons k ks =>
    rw [after_cons] at h
    cases h

/-- Where nothing is left open there is no fault. -/
theorem ok_of_after (h : s.after ks = some []) (hk : k ∈ ks) : ∃ t, k = .ok t := by
  induction ks generalizing s with
  | nil => cases hk
  | cons k' ks ih =>
    rw [after_cons] at h
    obtain ⟨s', hs', h⟩ := Option.bind_eq_some_iff.mp h
    obtain rfl | hk := List.mem_cons.mp hk
    · cases k with
      | ok t => exact ⟨t, rfl⟩
      | error fault =>
        obtain ⟨-, rfl⟩ := of_step_error hs'
        obtain ⟨-, ho⟩ := of_after_string h
        cases ho
    · exact ih h hk

/-- Before anything else a string can be left open. -/
theorem after_string (hs : s.after ks = some o) (ho : o.after ls = some []) :
    s.after (ks ++ [.error .unterminatedString]) = some (.string :: o) := by
  rw [after_append, hs, Option.bind_some, after_cons]
  match o with
  | [] => rfl
  | .quote :: _ => rfl
  | .group _ _ :: _ => rfl
  | .string :: _ =>
    obtain ⟨-, heq⟩ := of_after_string ho
    cases heq

end Shape

theorem Lexeme.results_eq {ls ls' : List Lexeme} (h : ls.map kind = ls'.map kind)
    (hok : ∀ k ∈ ls.map kind, ∃ t, k = .ok t) : ls.map result = ls'.map result := by
  induction ls generalizing ls' with
  | nil =>
    obtain rfl := List.map_eq_nil_iff.mp h.symm
    rfl
  | cons l ls ih =>
    cases ls' with
    | nil => cases h
    | cons l' ls' =>
      obtain ⟨hl, hls⟩ := List.cons.inj h
      obtain ⟨t, ht⟩ := hok l.kind (by simp)
      have hhead : l.result = l'.result :=
        (result_of_kind ht).trans (result_of_kind (hl.symm.trans ht)).symm
      have htail := ih hls fun k hk => hok k (List.mem_cons_of_mem _ hk)
      exact List.cons_eq_cons.mpr ⟨hhead, htail⟩

/-- A text of forms that is cut at the end of a line: the first part can be read on, and if it leaves nothing
open, then the lexemes of the whole are those of the parts. -/
theorem opened_of_append {a b : String} (h : opened (a ++ b) = some [])
    (hline : LineEnds a.toList b.toList) :
    ∃ o, opened a = some o ∧ (o = [] → opened b = some [] ∧
      (lex (a ++ b)).map Lexeme.kind = (lex a).map Lexeme.kind ++ (lex b).map Lexeme.kind) := by
  have hwhole : (lex (a ++ b)).map Lexeme.kind = kinds (a.toList ++ b.toList) := by
    rw [← String.toList_append]
    rfl
  unfold opened at h
  rw [hwhole] at h
  obtain happ | ⟨ks, hks, ls, hls⟩ := kinds_append hline
  · rw [happ, Shape.after_append] at h
    obtain ⟨o, ho, hb⟩ := Option.bind_eq_some_iff.mp h
    refine ⟨o, ho, ?_⟩
    rintro rfl
    exact ⟨hb, hwhole.trans happ⟩
  · rw [← hls, Shape.after_append] at h
    obtain ⟨o, ho, hrest⟩ := Option.bind_eq_some_iff.mp h
    have ha : opened a = some (.string :: o) := by
      show Shape.after [] (kinds a.toList) = _
      rw [hks, Shape.after_string ho hrest]
    exact ⟨_, ha, nofun⟩

namespace Reader

variable {β : Type} {here : Site} {f : β → Value → Action β} {a b : String}

/-- A text that is folded over with success leaves nothing open. -/
theorem opened_of_fold {x y : β} {w w' : World} (h : fold here f a x w = .ok y w') :
    opened a = some [] := by
  obtain ⟨k, hk⟩ := forms_of_foldUpTo h (Nat.le_refl _)
  exact hk.after

/-! ## Short of depth -/

variable {x : β} {w w' : World}

/-- A fold runs short of depth in one of the forms. -/
theorem forms_of_outOfDepth {n : Nat} {ls : List Lexeme}
    (h : foldUpTo here f n ls x w = .error .outOfDepth w') :
    ∃ k forms tail, ls = forms ++ tail ∧ Forms k forms ∧
      foldUpTo here f k forms x w = .error .outOfDepth w' := by
  induction n generalizing ls x w with
  | zero => cases h
  | succ n ih =>
    obtain ⟨result, rest, w₁, hread⟩ : ∃ result rest w₁, readFrom w here [] ls = ⟨result, rest, w₁⟩ :=
      ⟨_, _, _, rfl⟩
    cases result with
    | none =>
      rw [foldUpTo_of_none hread] at h
      cases h
    | some r =>
      cases r with
      | error e =>
        rw [foldUpTo_of_error hread] at h
        cases h
      | ok v =>
        obtain ⟨form, rfl, hform⟩ := form_of_readFrom hread
        -- The form is read in the same way whatever follows it.
        have hform' : ∀ tail, readFrom w here [] (form ++ tail) = ⟨some (.ok v), tail, w₁⟩ := by
          obtain ⟨v', w₁', hwhole⟩ | ⟨-, e, w₁', hwhole⟩ := readFrom_form w here [] hform
          · cases hread.symm.trans (hwhole rest)
            exact hwhole
          · obtain ⟨rest', hsame⟩ := hwhole rest
            cases hread.symm.trans hsame
        rw [foldUpTo_of_value hread] at h
        obtain hfails | ⟨y, w₂, hfirst, hrest⟩ := of_run_bind_error h
        · refine ⟨1, form ++ [], rest, by rw [List.append_nil], .cons hform .nil, ?_⟩
          rw [foldUpTo_of_value (hform' [])]
          exact run_bind_of_error hfails
        · obtain ⟨k, forms, tail, rfl, hforms, hfails⟩ := ih hrest
          refine ⟨k + 1, form ++ forms, tail, (List.append_assoc ..).symm, .cons hform hforms, ?_⟩
          rw [foldUpTo_of_value (hform' forms)]
          exact (run_bind_of_ok hfirst).trans hfails

/-- A fold that runs short of depth does so on every text that begins with the same tokens. -/
theorem fold_outOfDepth (h : fold here f a x w = .error .outOfDepth w')
    (hkinds : ∀ ks, (∀ k ∈ ks, ∃ t, k = .ok t) → ks <+: kinds a.toList → ks <+: kinds b.toList) :
    fold here f b x w = .error .outOfDepth w' := by
  obtain ⟨k, forms, tail, hlex, hforms, hfails⟩ := forms_of_outOfDepth h
  have hok : ∀ k ∈ forms.map Lexeme.kind, ∃ t, k = .ok t := fun _ hk => Shape.ok_of_after hforms.after hk
  have hbegins : forms.map Lexeme.kind <+: kinds a.toList := by
    show _ <+: (lex a).map Lexeme.kind
    rw [hlex, List.map_append]
    exact List.prefix_append _ _
  obtain ⟨ks, hks⟩ := hkinds _ hok hbegins
  obtain ⟨first, rest, hlex', hfirst, -⟩ := List.map_eq_append_iff.mp hks.symm
  have hresults := Lexeme.results_eq hfirst.symm hok
  have hwhole : lex b = first ++ rest := hlex'
  have hlength : first.length = forms.length := by simpa using congrArg List.length hfirst
  have hle := hforms.le_length
  obtain ⟨m, hm⟩ : ∃ m, (lex b).length = k + m :=
    ⟨(lex b).length - k, by rw [hwhole, List.length_append]; omega⟩
  have hcongr : foldUpTo here f (k + m) (first ++ rest) x = foldUpTo here f (k + m) (forms ++ rest) x :=
    foldUpTo_congr (by rw [List.map_append, List.map_append, hresults])
  calc fold here f b x w
    _ = foldUpTo here f (k + m) (first ++ rest) x w := by
      rw [← hm, ← hwhole]
      rfl
    _ = (foldUpTo here f k forms x >>= foldUpTo here f m rest) w := by rw [hcongr, foldUpTo_append hforms]
    _ = .error .outOfDepth w' := run_bind_of_error hfails

end Reader

end SmallLisp
