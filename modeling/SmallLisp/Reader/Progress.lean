import SmallLisp.Reader

/-!
# Progress of reading

Reading a form takes at least one lexeme (`Reader.length_rest_readFrom`), whether it ends in a value or
in an error, and nothing is read exactly when no lexeme is left
(`Reader.result_next_eq_none_iff`).
-/

namespace SmallLisp.Reader

/-- Recovery leaves no more lexemes. -/
theorem length_recover_le (depth : Nat) (lexemes : List Lexeme) :
    (recover depth lexemes).length ≤ lexemes.length := by
  fun_induction recover depth lexemes <;> simp_all <;> omega

/-- Reading on leaves no more lexemes, and fewer if there were any. -/
theorem length_rest_readFrom (w : World) (here : Site) (frames : List Frame) (l : Lexeme)
    (lexemes : List Lexeme) :
    (readFrom w here frames (l :: lexemes)).rest.length < (l :: lexemes).length := by
  induction lexemes generalizing w frames l with
  | nil =>
    simp only [readFrom]
    split
    · simpa using length_recover_le (depth frames) []
    · split
      · simp
      · rename_i frames' w' _
        cases frames' <;> simp [readFrom]
      · rename_i d w' _
        simpa using length_recover_le d []
  | cons l' lexemes ih =>
    simp only [readFrom]
    split
    · have h := length_recover_le (depth frames) (l' :: lexemes)
      simp only [List.length_cons] at h ⊢
      omega
    · split
      · simp
      · rename_i frames' w' _
        have h := ih w' frames' l'
        rw [readFrom] at h
        simp only [List.length_cons] at h ⊢
        omega
      · rename_i d w' _
        have h := length_recover_le d (l' :: lexemes)
        simp only [List.length_cons] at h ⊢
        omega

/-- A form that is handed on and waits for more is inside something. -/
theorem supply_pending {w w' : World} {v : Value} {frames frames' : List Frame}
    (h : supply w v frames = (.pending frames', w')) : frames' ≠ [] := by
  fun_induction supply w v frames with
  | case1 => simp at h
  | case2 _ _ _ _ _ _ ih => exact ih h
  | case3 =>
    simp only [Prod.mk.injEq, ReadStep.pending.injEq] at h
    rw [← h.1]
    simp

/-- A collection that waits for more is inside something. -/
theorem close_pending {w w' : World} {b : Bracket} {items : List Value}
    {frames frames' : List Frame} (h : close w b items frames = (.pending frames', w')) :
    frames' ≠ [] := by
  cases b with
  | round => exact supply_pending h
  | square => exact supply_pending h
  | curly =>
    simp only [close] at h
    split at h
    · exact supply_pending h
    · simp at h

/-- A token after which more tokens are needed leaves something open. -/
theorem step_pending {w w' : World} {here : Site} {frames frames' : List Frame} {t : Token}
    (h : step w here frames t = (.pending frames', w')) : frames' ≠ [] := by
  cases t with
  | int n => exact supply_pending h
  | float x => exact supply_pending h
  | str text => exact supply_pending h
  | symbol text => exact supply_pending h
  | keyword text auto =>
    simp only [step] at h
    split at h
    · exact supply_pending h
    · simp at h
  | quote =>
    simp only [step, Prod.mk.injEq, ReadStep.pending.injEq] at h
    rw [← h.1]
    simp
  | opening b =>
    simp only [step, Prod.mk.injEq, ReadStep.pending.injEq] at h
    rw [← h.1]
    simp
  | closing b =>
    simp only [step] at h
    split at h
    · split at h
      · exact close_pending h
      · simp at h
    · simp at h

/-- Nothing is read exactly when no lexeme is left. -/
theorem result_next_eq_none_iff (w : World) (here : Site) (lexemes : List Lexeme) :
    (next w here lexemes).result = none ↔ lexemes = [] := by
  suffices h : ∀ lexemes w frames, lexemes ≠ [] ∨ frames ≠ [] →
      (readFrom w here frames lexemes).result ≠ none by
    constructor
    · intro hn
      exact Classical.not_not.mp fun hl => h lexemes w [] (.inl hl) hn
    · rintro rfl
      rfl
  intro lexemes
  induction lexemes with
  | nil =>
    intro w frames hf
    cases frames with
    | nil => simp at hf
    | cons frame frames => simp [readFrom]
  | cons l lexemes ih =>
    intro w frames _
    simp only [readFrom]
    split
    · simp
    · split
      · simp
      · rename_i frames' w' hs
        exact ih w' frames' (.inr (step_pending hs))
      · simp

end SmallLisp.Reader
