import SmallLisp.Proofs.Reader.Texts

/-!
# The results of a text

Where the running thread has a current namespace, the results of a text can be told from its shape. A text that
leaves nothing open gives a value for each form (`Reader.resultsUpTo_forms`), and one that leaves something open
gives one error more, which more text could mend (`Reader.resultsUpTo_open`). Conversely, the results tell
the shape: where there is no error, nothing is left open (`Reader.forms_of_results`), and where the first error is
one that more text could mend, something is (`Reader.open_of_firstError`).
-/

namespace SmallLisp

variable {here : Site} {w w' : World} {n : Nat} {r : Except Error Value} {e : Error} {s o : Shape}
  {t : Token} {frames : List Frame} {ls ls' rest : List Lexeme}

/-- What is left open can be taken in. -/
theorem IsOpen.after (h : IsOpen s ls) : ∃ o, o ≠ [] ∧ s.after (ls.map Lexeme.kind) = some o := by
  induction h with
  | last hne => exact ⟨_, hne, rfl⟩
  | more h _ _ ih =>
    obtain ⟨o, ho, hafter⟩ := ih
    exact ⟨o, ho, by rw [List.map_cons, Shape.after_cons, h, Option.bind_some, hafter]⟩

namespace Reader

/-- The first error among results. -/
def firstError? (rs : List (Except Error Value)) : Option Error :=
  rs.findSome? fun
    | .error e => some e
    | .ok _ => none

@[simp] theorem firstError?_values (vs : List Value) (rs : List (Except Error Value)) :
    firstError? (vs.map .ok ++ rs) = firstError? rs := by
  induction vs with
  | nil => rfl
  | cons v vs ih => exact ih

/-! ## One form at a time -/

theorem resultsUpTo_nil (here : Site) (n : Nat) (w : World) : resultsUpTo here n w [] = ([], w) := by
  cases n <;> rfl

/-- The first result, and those of the rest. -/
theorem resultsUpTo_of_read (h : readFrom w here [] ls = ⟨some r, rest, w'⟩) :
    resultsUpTo here (n + 1) w ls =
      (r :: (resultsUpTo here n w' rest).1, (resultsUpTo here n w' rest).2) := by
  rw [resultsUpTo, next, h]

/-- The reader looks at the results of lexing alone. -/
theorem resultsUpTo_congr (h : ls.map Lexeme.result = ls'.map Lexeme.result) (n : Nat) (w : World) :
    resultsUpTo here n w ls = resultsUpTo here n w ls' := by
  induction n generalizing w ls ls' with
  | zero => rfl
  | succ n ih =>
    obtain ⟨hresult, hrest, hworld⟩ := readFrom_congr h w here []
    unfold resultsUpTo next
    generalize readFrom w here [] ls = a at hresult hrest hworld ⊢
    generalize readFrom w here [] ls' = b at hresult hrest hworld ⊢
    obtain ⟨result, rest, u⟩ := a
    obtain ⟨_, rest', _⟩ := b
    dsimp only at hresult hrest hworld
    subst hresult hworld
    cases result with
    | none => rfl
    | some r =>
      dsimp only
      rw [ih hrest]

/-! ## From the shape to the results -/

/-- Forms are read to values, whatever follows them. -/
theorem resultsUpTo_forms {k : Nat} (h : Forms k ls) (hw : HasCurrent here w) :
    ∃ (vs : List Value) (w' : World), HasCurrent here w' ∧ ∀ m rest, resultsUpTo here (k + m) w (ls ++ rest) =
      (vs.map .ok ++ (resultsUpTo here m w' rest).1, (resultsUpTo here m w' rest).2) := by
  induction h generalizing w with
  | nil => exact ⟨[], w, hw, fun m rest => by rw [Nat.zero_add]; rfl⟩
  | @cons k form forms hform _ ih =>
    obtain ⟨v, w₁, hread⟩ | ⟨hcurrent, -⟩ := readFrom_form w here [] hform
    · have hw₁ : HasCurrent here w₁ := by
        have hglanced := glanced_readFrom hw.hasState [] (form ++ [])
        rw [hread] at hglanced
        exact hw.glanced hglanced
      obtain ⟨vs, w', hw', hresults⟩ := ih hw₁
      refine ⟨v :: vs, w', hw', fun m rest => ?_⟩
      rw [Nat.add_right_comm, List.append_assoc, resultsUpTo_of_read (hread _), hresults]
      rfl
    · exact absurd hw hcurrent

/-- What is left open gives an error that more text could mend. -/
theorem resultsUpTo_open (hw : HasCurrent here w) (ho : IsOpen [] ls) :
    ∃ e, e.isIncomplete = true ∧ ∀ m, (resultsUpTo here (m + 1) w ls).1 = [.error e] := by
  obtain ⟨e, hread, he⟩ := readFrom_open [] hw ho
  refine ⟨e, he, fun m => ?_⟩
  rw [resultsUpTo_of_read hread, resultsUpTo_nil]

/-! ## From the results to the shape -/

theorem supply_ne_refused {v : Value} {d : Nat} : supply w v frames ≠ (.refused e d, w') := by
  induction frames generalizing w v with
  | nil => exact nofun
  | cons frame frames ih =>
    cases frame with
    | quote => exact ih
    | group b items => exact nofun

/-- What a token may be refused for: the running thread has no current namespace, the keyword has two colons and
a namespace part, or a bracket is closed where it must not be. -/
theorem refused_cases {d : Nat} (h : step w here frames t = (.refused e d, w')) :
    (∃ fault, e = .eval fault) ∨ e = .aliasedKeyword ∨ e = .parse .oddMap ∨
      ∃ b, e = .parse (.unexpectedClosing b) := by
  cases t with
  | int n => exact absurd h supply_ne_refused
  | float x => exact absurd h supply_ne_refused
  | str text => exact absurd h supply_ne_refused
  | symbol text => exact absurd h supply_ne_refused
  | keyword text auto =>
    unfold step World.readKeyword at h
    dsimp only at h
    split at h
    · exact absurd h supply_ne_refused
    · rename_i hread
      cases h
      split at hread
      · cases hread
      · split at hread
        · cases hread
          exact .inr (.inl rfl)
        · split at hread
          · cases hread
          · cases hread
            exact .inl ⟨_, rfl⟩
  | quote => cases h
  | opening b => cases h
  | closing b =>
    unfold step at h
    dsimp only at h
    split at h
    · split at h
      · unfold close at h
        split at h
        · exact absurd h supply_ne_refused
        · exact absurd h supply_ne_refused
        · split at h
          · exact absurd h supply_ne_refused
          · cases h
            exact .inr (.inr (.inl rfl))
      · cases h
        exact .inr (.inr (.inr ⟨b, rfl⟩))
    · cases h
      exact .inr (.inr (.inr ⟨b, rfl⟩))

/-- More text does not mend what is wrong with a token. -/
theorem isIncomplete_of_refused {d : Nat} (h : step w here frames t = (.refused e d, w')) :
    e.isIncomplete = false := by
  obtain ⟨_, rfl⟩ | rfl | rfl | ⟨_, rfl⟩ := refused_cases h <;> rfl

/-- Of the faults of lexing, more text mends only an open string. -/
theorem kind_of_isIncomplete {l : Lexeme} {fault : LexError} (hl : l.result = .error fault)
    (he : (Error.lex fault).isIncomplete = true) : l.kind = .error .unterminatedString := by
  obtain ⟨position, reason⟩ := fault
  unfold Lexeme.kind
  rw [hl]
  cases reason with
  | unterminatedString => rfl
  | _ => cases he

/-- Nothing comes behind a string that is left open. -/
def StringsLast (ls : List Lexeme) : Prop :=
  ∀ before l after, ls = before ++ l :: after → l.kind = .error .unterminatedString → after = []

theorem StringsLast.append_right (h : StringsLast (ls ++ rest)) : StringsLast rest := by
  rintro before l after rfl hl
  exact h (ls ++ before) l after (List.append_assoc ..).symm hl

/-- An error that more text could mend comes from something that is left open. -/
theorem open_of_readFrom (hlast : StringsLast ls) (hw : HasCurrent here w)
    (h : readFrom w here frames ls = ⟨some (.error e), rest, w'⟩) (he : e.isIncomplete = true) :
    IsOpen (Frame.shape frames) ls := by
  induction ls generalizing w frames with
  | nil =>
    cases frames with
    | nil => cases h
    | cons frame frames => exact .last (List.cons_ne_nil _ _)
  | cons l ls ih =>
    rw [readFrom] at h
    cases hl : l.result with
    | error fault =>
      rw [hl] at h
      cases h
      have hkind := kind_of_isIncomplete hl he
      obtain rfl := hlast [] l ls rfl hkind
      have hstep : (Frame.shape frames).step l.kind = some (.string :: Frame.shape frames) := by
        rw [hkind]
        obtain _ | ⟨_ | ⟨_, _⟩, _⟩ := frames <;> rfl
      exact .more hstep (List.cons_ne_nil _ _) (.last (List.cons_ne_nil _ _))
    | ok t =>
      have hpending : ∀ {frames' w'}, step w here frames t = (.pending frames', w') → frames' ≠ [] :=
        step_pending
      have hrefused : ∀ {e d w'}, step w here frames t = (.refused e d, w') → e.isIncomplete = false :=
        isIncomplete_of_refused
      have hshape : ∀ {s}, (step w here frames t).1.shape = some s →
          (Frame.shape frames).step l.kind = some s := step_of_shape_step hl
      have hcurrent := hw.glanced (glanced_step hw.hasState frames t)
      rw [hl] at h
      dsimp only at h
      generalize step w here frames t = x at *
      obtain ⟨v | frames' | ⟨e', d⟩, w₁⟩ := x
      · cases h
      · have hne : Frame.shape frames' ≠ [] := mt frames_shape_eq_nil.mp (hpending rfl)
        have hwhole : StringsLast ([l] ++ ls) := hlast
        exact .more (hshape rfl) hne (ih hwhole.append_right hcurrent h)
      · cases h
        rw [hrefused rfl] at he
        cases he

/-- Where the first error is one that more text could mend, something is left open. -/
theorem open_of_firstError (hlast : StringsLast ls) (hw : HasCurrent here w)
    (h : firstError? (resultsUpTo here n w ls).1 = some e) (he : e.isIncomplete = true) :
    ∃ o, o ≠ [] ∧ Shape.after [] (ls.map Lexeme.kind) = some o := by
  induction n generalizing w ls with
  | zero => cases h
  | succ n ih =>
    have hglanced := glanced_readFrom hw.hasState [] ls
    have hread : readFrom w here [] ls = ⟨_, _, _⟩ := rfl
    cases hresult : (readFrom w here [] ls).result with
    | none =>
      obtain rfl := (result_next_eq_none_iff w here ls).mp hresult
      cases h
    | some r =>
      rw [hresult] at hread
      rw [resultsUpTo_of_read hread] at h
      cases r with
      | error e' =>
        obtain rfl : e' = e := Option.some.inj h
        exact (open_of_readFrom hlast hw hread he).after
      | ok v =>
        obtain ⟨form, hls, hform⟩ := form_of_readFrom hread
        have hlast' : StringsLast (readFrom w here [] ls).rest := by
          rw [hls] at hlast
          exact hlast.append_right
        obtain ⟨o, ho, hafter⟩ := ih hlast' (hw.glanced hglanced) h
        refine ⟨o, ho, ?_⟩
        have hform' := hform.after
        rw [show Frame.shape [] = [] from rfl] at hform'
        rw [hls, List.map_append, Shape.after_append, hform', Option.bind_some, hafter]

/-- Where all results are values, nothing is left open. -/
theorem forms_of_results (h : ∀ r ∈ (resultsUpTo here n w ls).1, ∃ v, r = .ok v)
    (hn : ls.length ≤ n) : ∃ k, Forms k ls := by
  induction n generalizing w ls with
  | zero =>
    obtain rfl := List.length_eq_zero_iff.mp (Nat.le_zero.mp hn)
    exact ⟨0, .nil⟩
  | succ n ih =>
    have hread : readFrom w here [] ls = ⟨_, _, _⟩ := rfl
    cases hresult : (readFrom w here [] ls).result with
    | none =>
      obtain rfl := (result_next_eq_none_iff w here ls).mp hresult
      exact ⟨0, .nil⟩
    | some r =>
      rw [hresult] at hread
      rw [resultsUpTo_of_read hread] at h
      obtain ⟨v, rfl⟩ := h r (List.mem_cons_self ..)
      obtain ⟨form, hls, hform⟩ := form_of_readFrom hread
      have hlt : (readFrom w here [] ls).rest.length < n + 1 := Nat.lt_of_lt_of_le (length_rest_of_value hread) hn
      obtain ⟨k, hk⟩ := ih (fun r hr => h r (List.mem_cons_of_mem _ hr)) (Nat.le_of_lt_succ hlt)
      exact ⟨k + 1, hls ▸ .cons hform hk⟩

end Reader

end SmallLisp
