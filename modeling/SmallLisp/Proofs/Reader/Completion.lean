import Mathlib
import SmallLisp.Proofs.Reader.Results
import SmallLisp.Proofs.Token.OpenString
import SmallLisp.Proofs.Token.Spelling

/-!
# Texts that can be completed

A text of whole lines stops partway, as its first error tells, exactly when it is not read to its end but could
be read together with more text (`Reader.incomplete_iff_completable`). One direction is that a text that
can be completed leaves something open, by the way lexing goes over the end of a line. The other one makes up what
is missing: a quote for an open string, a string for a quote mark or for the value of the last key of a map, and
the closing brackets (`exists_completion`).
-/

namespace SmallLisp

variable {s s' o : Shape} {t : Token} {ks : List (Except LexFault Token)} {text : String}

namespace Shape

/-- No string is open. -/
def NoString (s : Shape) : Prop := Slot.string ∉ s

theorem NoString.tail {slot : Slot} (h : NoString (slot :: s)) : NoString s :=
  fun hmem => h (List.mem_cons_of_mem slot hmem)

theorem NoString.cons {slot : Slot} (h : NoString s) (hslot : slot ≠ .string) : NoString (slot :: s) := by
  intro hmem
  obtain heq | hmem := List.mem_cons.mp hmem
  · exact hslot heq.symm
  · exact h hmem

theorem NoString.supply (h : NoString s) : NoString s.supply := by
  induction s with
  | nil => exact h
  | cons slot s ih =>
    cases slot with
    | quote => exact ih h.tail
    | group b items => exact h.tail.cons nofun
    | string => exact h

theorem NoString.take (h : NoString s) (ht : s.take t = some s') : NoString s' := by
  cases t with
  | int n => exact Option.some.inj ht ▸ h.supply
  | float x => exact Option.some.inj ht ▸ h.supply
  | str text => exact Option.some.inj ht ▸ h.supply
  | symbol text => exact Option.some.inj ht ▸ h.supply
  | keyword text auto =>
    unfold Shape.take at ht
    dsimp only at ht
    split at ht
    · cases ht
    · exact Option.some.inj ht ▸ h.supply
  | quote => exact Option.some.inj ht ▸ h.cons nofun
  | opening b => exact Option.some.inj ht ▸ h.cons nofun
  | closing b =>
    unfold Shape.take at ht
    dsimp only at ht
    split at ht
    · split at ht
      · unfold Shape.close at ht
        split at ht
        · cases ht
        · exact Option.some.inj ht ▸ h.tail.supply
      · cases ht
    · cases ht

/-- A token is taken in where no string is open. -/
theorem NoString.step (h : NoString s) (t : Token) : s.step (.ok t) = s.take t := by
  match s with
  | [] => rfl
  | .quote :: _ => rfl
  | .group _ _ :: _ => rfl
  | .string :: _ => exact absurd (List.mem_cons_self ..) h

theorem NoString.after (h : NoString s) (hks : ∀ k ∈ ks, ∃ t, k = .ok t) (ho : s.after ks = some o) :
    NoString o := by
  induction ks generalizing s with
  | nil => exact Option.some.inj ho ▸ h
  | cons k ks ih =>
    obtain ⟨t, rfl⟩ := hks k (List.mem_cons_self ..)
    rw [after_cons, h.step] at ho
    obtain ⟨s', hs', ho⟩ := Option.bind_eq_some_iff.mp ho
    exact ih (h.take hs') (fun k hk => hks k (List.mem_cons_of_mem _ hk)) ho

/-- What can be taken in is tokens, and perhaps a string that is left open behind them. -/
theorem tokens_or_string (h : s.after ks = some o) :
    (∀ k ∈ ks, ∃ t, k = .ok t) ∨
      ∃ before o', ks = before ++ [.error .unterminatedString] ∧ (∀ k ∈ before, ∃ t, k = .ok t) ∧
        s.after before = some o' := by
  induction ks generalizing s with
  | nil => exact .inl nofun
  | cons k ks ih =>
    rw [after_cons] at h
    obtain ⟨s', hs', hafter⟩ := Option.bind_eq_some_iff.mp h
    cases k with
    | error fault =>
      obtain ⟨rfl, rfl⟩ := of_step_error hs'
      obtain ⟨rfl, -⟩ := of_after_string hafter
      exact .inr ⟨[], s, rfl, nofun, rfl⟩
    | ok t =>
      have hcons : ∀ ls : List (Except LexFault Token), (∀ k ∈ ls, ∃ t, k = .ok t) →
          ∀ k ∈ Except.ok t :: ls, ∃ t, k = Except.ok t := by
        intro ls hls k hk
        obtain rfl | hk := List.mem_cons.mp hk
        · exact ⟨t, rfl⟩
        · exact hls k hk
      obtain htokens | ⟨before, o', rfl, htokens, ho'⟩ := ih hafter
      · exact .inl (hcons _ htokens)
      · refine .inr ⟨.ok t :: before, o', rfl, hcons _ htokens, ?_⟩
        rw [after_cons, hs', Option.bind_some, ho']

end Shape

open Shape

/-! ## Making up what is missing -/

theorem kinds_emptyString (cs : List Char) : kinds ('"' :: '"' :: cs) = .ok (.str "") :: kinds cs := by
  rw [kinds_string, Cursor.stringBody_quote]
  rfl

/-- Once what is open has been handed a form, some text completes it. -/
theorem exists_completion (hs : s.NoString) : ∃ cs, s.supply.after (kinds cs) = some [] := by
  induction s with
  | nil => exact ⟨[], rfl⟩
  | cons slot s ih =>
    obtain ⟨cs, hcs⟩ := ih hs.tail
    cases slot with
    | quote => exact ⟨cs, hcs⟩
    | string => exact absurd (List.mem_cons_self ..) hs
    | group b items =>
      -- The bracket can be closed, unless it holds a key without a value.
      have hclosed : ∀ m, ¬ (b = .curly ∧ m % 2 ≠ 0) →
          Shape.after (.group b m :: s) (kinds (b.closer :: cs)) = some [] := by
        intro m hm
        have hstep : Shape.step (.group b m :: s) (.ok (.closing b)) = some (supply s) := by
          simp only [Shape.step, Shape.take, Shape.close, if_pos, if_neg hm]
        rw [kinds_closer, after_cons, hstep, Option.bind_some, hcs]
      by_cases hodd : b = .curly ∧ (items + 1) % 2 ≠ 0
      · refine ⟨'"' :: '"' :: b.closer :: cs, ?_⟩
        rw [kinds_emptyString, after_cons]
        show Shape.after (.group b (items + 2) :: s) _ = _
        exact hclosed (items + 2) fun heven => by omega
      · exact ⟨b.closer :: cs, hclosed (items + 1) hodd⟩

theorem ends_of_line (hline : text.toList.getLast? = some '\n') :
    ∀ c, text.toList.getLast? = some c → c = '\n' := by
  intro c hc
  rw [hline] at hc
  exact (Option.some.inj hc).symm

/-- A text of whole lines that leaves something open can be completed. -/
theorem exists_opened_append (h : opened text = some o)
    (hline : text.toList.getLast? = some '\n') : ∃ more, opened (text ++ more) = some [] := by
  have hends := ends_of_line hline
  have hwhole : ∀ ds, opened (text ++ String.ofList ds) = Shape.after [] (kinds (text.toList ++ ds)) := by
    intro ds
    show Shape.after [] (kinds (text ++ String.ofList ds).toList) = _
    rw [String.toList_append, String.toList_ofList]
  have hkinds : Shape.after [] (kinds text.toList) = some o := h
  obtain htokens | ⟨before, o', hbefore, htokens, ho'⟩ := tokens_or_string hkinds
  · -- All is tokens, and another one can be put behind them.
    have hopen : o.NoString := NoString.after (s := []) nofun htokens hkinds
    obtain ⟨cs, hcs⟩ := exists_completion hopen
    refine ⟨String.ofList ('"' :: '"' :: cs), ?_⟩
    rw [hwhole]
    have hcut : LineEnds text.toList ('"' :: '"' :: cs) := .inl hends
    obtain happ | ⟨ks, hks, -⟩ := kinds_append hcut
    · rw [happ, after_append, hkinds, Option.bind_some, kinds_emptyString, after_cons, hopen.step]
      exact hcs
    · obtain ⟨t, ht⟩ := htokens (.error .unterminatedString) (hks ▸ List.mem_append_right ks (by simp))
      cases ht
  · -- A string is left open, and a quote closes it.
    have hopen : o'.NoString := NoString.after (s := []) nofun htokens ho'
    obtain ⟨cs, hcs⟩ := exists_completion hopen
    obtain ⟨x, hx⟩ := kinds_append_quote hbefore hends
    refine ⟨String.ofList ('"' :: cs), ?_⟩
    rw [hwhole, hx, after_append, ho', Option.bind_some, after_cons, hopen.step]
    exact hcs

namespace Reader

variable {here : Site} {w : World} {e : Error}

/-- Every form of the text is read to a value. -/
def ReadsWell (w : World) (here : Site) (text : String) : Prop :=
  ∀ r ∈ (results w here text).1, ∃ v, r = .ok v

theorem stringsLast_lex (text : String) : StringsLast (lex text) := by
  intro before l after hlex hl
  have hkinds : kinds text.toList = before.map Lexeme.kind ++ l.kind :: after.map Lexeme.kind := by
    show (lex text).map Lexeme.kind = _
    rw [hlex, List.map_append, List.map_cons]
  rw [hl] at hkinds
  exact List.map_eq_nil_iff.mp (eq_nil_of_unterminated hkinds)

/-- A text that is read well leaves nothing open. -/
theorem opened_of_readsWell (h : ReadsWell w here text) : opened text = some [] := by
  obtain ⟨k, hk⟩ := forms_of_results h (Nat.le_refl _)
  exact hk.after

/-- A text that leaves nothing open is read well. -/
theorem readsWell_of_opened (hw : HasCurrent here w) (h : opened text = some []) :
    ReadsWell w here text := by
  obtain ⟨k, hk⟩ := forms_of_after h
  obtain ⟨vs, w', -, hresults⟩ := resultsUpTo_forms hk hw
  obtain ⟨m, hm⟩ := Nat.exists_eq_add_of_le hk.le_length
  have hwhole : (results w here text).1 = vs.map .ok := by
    unfold results
    dsimp only
    rw [hm, ← List.append_nil (lex text), hresults, resultsUpTo_nil, List.append_nil]
  intro r hr
  rw [hwhole] at hr
  obtain ⟨v, -, rfl⟩ := List.mem_map.mp hr
  exact ⟨v, rfl⟩

/-- The tokens that a text of whole lines begins with are those that it begins with when more text stands
behind it. -/
theorem prefix_kinds_append {text : String} (hline : text.toList.getLast? = some '\n')
    (hks : ∀ k ∈ ks, ∃ t, k = .ok t) (h : ks <+: kinds text.toList) (more : String) :
    ks <+: kinds (text ++ more).toList := by
  rw [String.toList_append]
  obtain happ | ⟨before, hbefore, hprefix⟩ := kinds_append (.inl (ends_of_line hline))
  · rw [happ]
    exact h.trans (List.prefix_append _ _)
  · rw [hbefore] at h
    obtain rfl | h := List.prefix_concat_iff.mp h
    · obtain ⟨t, ht⟩ := hks (.error .unterminatedString) (List.mem_append_right before (by simp))
      cases ht
    · exact h.trans hprefix

/-- Forms that a text of whole lines begins with are read first, whatever follows the text. -/
theorem prefix_results_append (hline : text.toList.getLast? = some '\n') {k : Nat} {forms tail : List Lexeme}
    (hlex : lex text = forms ++ tail) (hforms : Forms k forms) {vs : List Value} {w' : World}
    (hresults : ∀ m rest, resultsUpTo here (k + m) w (forms ++ rest) =
      (vs.map .ok ++ (resultsUpTo here m w' rest).1, (resultsUpTo here m w' rest).2)) (more : String) :
    vs.map .ok <+: (results w here (text ++ more)).1 := by
  have hok : ∀ k ∈ forms.map Lexeme.kind, ∃ t, k = .ok t :=
    fun _ hk => Shape.ok_of_after hforms.after hk
  have hbegins : forms.map Lexeme.kind <+: kinds text.toList := by
    show _ <+: (lex text).map Lexeme.kind
    rw [hlex, List.map_append]
    exact List.prefix_append _ _
  obtain ⟨ks, hks⟩ := prefix_kinds_append hline hok hbegins more
  obtain ⟨first, rest, hlex', hfirst, -⟩ := List.map_eq_append_iff.mp hks.symm
  have hsame := Lexeme.results_eq hfirst.symm hok
  have hlength : first.length = forms.length := by
    simpa using congrArg List.length hfirst
  have hwhole : lex (text ++ more) = first ++ rest := hlex'
  have hle := hforms.le_length
  obtain ⟨m, hm⟩ : ∃ m, (lex (text ++ more)).length = k + m :=
    ⟨(lex (text ++ more)).length - k, by rw [hwhole, List.length_append]; omega⟩
  have hread : results w here (text ++ more) = resultsUpTo here (k + m) w (forms ++ rest) := by
    unfold results
    dsimp only
    rw [hm, hwhole]
    exact resultsUpTo_congr (by rw [List.map_append, List.map_append, hsame]) _ _
  rw [hread, hresults]
  exact List.prefix_append _ _

/-- What a text gives that can be read on: values, and an error if something is left open. The values come
first in every text of which this one is a part and that is read well. -/
theorem results_of_opened (hw : HasCurrent here w) (hline : text.toList.getLast? = some '\n')
    (h : opened text = some o) :
    ∃ vs : List Value,
      (o = [] ∧ (results w here text).1 = vs.map .ok ∨ o ≠ [] ∧ ∃ e, e.isIncomplete = true ∧
        (results w here text).1 = vs.map .ok ++ [.error e]) ∧
      ∀ more, vs.map .ok <+: (results w here (text ++ more)).1 := by
  obtain ⟨k, forms, tail, hlex, hforms, htail⟩ := forms_then_open h
  obtain ⟨vs, w', hw', hresults⟩ := resultsUpTo_forms hforms hw
  have hle := hforms.le_length
  refine ⟨vs, ?_, fun more => ?_⟩
  · obtain ⟨m, hm, htail_le⟩ : ∃ m, (lex text).length = k + m ∧ tail.length ≤ m := by
      rw [hlex, List.length_append]
      exact ⟨forms.length + tail.length - k, by omega, by omega⟩
    have hwhole : (results w here text).1 = vs.map .ok ++ (resultsUpTo here m w' tail).1 := by
      unfold results
      dsimp only
      rw [hm, hlex, hresults]
    rw [hwhole]
    obtain ⟨rfl, rfl⟩ | ⟨ho, hne, hopen⟩ := htail
    · rw [resultsUpTo_nil, List.append_nil]
      exact .inl ⟨rfl, rfl⟩
    · obtain ⟨e, he, herror⟩ := resultsUpTo_open hw' hopen
      have hpos := List.length_pos_iff.mpr hne
      obtain ⟨m, rfl⟩ := Nat.exists_eq_add_one.mpr (Nat.lt_of_lt_of_le hpos htail_le)
      exact .inr ⟨ho, e, he, by rw [herror]⟩
  · exact prefix_results_append hline hlex hforms hresults more

/-- A text of whole lines stops partway exactly when it is not read well, but could be with more text behind it.
Then it stops at its last form, and the forms before it come first in every text that completes it. -/
theorem incomplete_iff_completable (hw : HasCurrent here w)
    (hline : text.toList.getLast? = some '\n') :
    ((∃ e, firstError? (results w here text).1 = some e ∧ e.isIncomplete = true) ↔
      ¬ ReadsWell w here text ∧ ∃ more, ReadsWell w here (text ++ more)) ∧
    ∀ e, firstError? (results w here text).1 = some e → e.isIncomplete = true →
      ∃ vs : List Value, (results w here text).1 = vs.map .ok ++ [.error e] ∧
        ∀ more, ReadsWell w here (text ++ more) → vs.map .ok <+: (results w here (text ++ more)).1 := by
  have hmends : ∀ e, firstError? (results w here text).1 = some e → e.isIncomplete = true →
      ∃ o, o ≠ [] ∧ opened text = some o :=
    fun e he hmendable => open_of_firstError (stringsLast_lex text) hw he hmendable
  refine ⟨⟨?_, ?_⟩, ?_⟩
  · rintro ⟨e, he, hmendable⟩
    obtain ⟨o, ho, hopened⟩ := hmends e he hmendable
    refine ⟨fun hwell => ?_, ?_⟩
    · exact ho (Option.some.inj (hopened.symm.trans (opened_of_readsWell hwell)))
    · obtain ⟨more, hmore⟩ := exists_opened_append hopened hline
      exact ⟨more, readsWell_of_opened hw hmore⟩
  · rintro ⟨hnot, more, hmore⟩
    -- The whole can be cut behind the first text, so that one leaves something open.
    obtain ⟨o, ho, -⟩ := opened_of_append (opened_of_readsWell hmore) (.inl (ends_of_line hline))
    obtain ⟨vs, ⟨rfl, -⟩ | ⟨-, e, he, hresults⟩, -⟩ := results_of_opened hw hline ho
    · exact absurd (readsWell_of_opened hw ho) hnot
    · exact ⟨e, by rw [hresults, firstError?_values]; rfl, he⟩
  · intro e he hmendable
    obtain ⟨o, ho, hopened⟩ := hmends e he hmendable
    obtain ⟨vs, ⟨rfl, -⟩ | ⟨-, e', -, hresults⟩, hprefix⟩ := results_of_opened hw hline hopened
    · exact absurd rfl ho
    · rw [hresults, firstError?_values] at he
      obtain rfl : e' = e := Option.some.inj he
      exact ⟨vs, hresults, fun more _ => hprefix more⟩

/-- A map without a value for its key, and that value a string that is left open. -/
theorem incomplete_iff_completable_string :
    HasCurrent ⟨0, 0⟩ (World.empty.newRegistry 0 10).2 ∧
      ¬ ReadsWell (World.empty.newRegistry 0 10).2 ⟨0, 0⟩ "1 \x7b:a \"b\n" ∧
        ∃ more, ReadsWell (World.empty.newRegistry 0 10).2 ⟨0, 0⟩ ("1 \x7b:a \"b\n" ++ more) := by
  have hcurrent : HasCurrent ⟨0, 0⟩ (World.empty.newRegistry 0 10).2 := by
    cbv
  have herror : firstError? (results (World.empty.newRegistry 0 10).2 ⟨0, 0⟩ "1 \x7b:a \"b\n").1 =
      some (.lex ⟨6, .unterminatedString⟩) := by
    cbv
  have hcompletes := (incomplete_iff_completable hcurrent (by decide)).1.mp ⟨_, herror, rfl⟩
  exact ⟨hcurrent, hcompletes⟩

end Reader

end SmallLisp
