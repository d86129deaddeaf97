import SmallLisp.Token.Progress

/-!
# Positions

A position is the number of characters before it (`Cursor.position_skip`, `Cursor.position_token`), and
it has no other part in lexing: where a text stands only moves the positions of what it is lexed to
(`Cursor.lexemes_moved`).
-/

namespace SmallLisp

/-- The same fault so many characters further on. -/
def LexError.moved (n : Nat) (e : LexError) : LexError := ⟨e.position + n, e.fault⟩

/-- The same lexeme so many characters further on. -/
def Lexeme.moved (n : Nat) (l : Lexeme) : Lexeme := ⟨l.result.mapError (·.moved n), l.stop + n⟩

namespace Cursor

/-- The same characters so many characters further on. -/
def moved (n : Nat) (c : Cursor) : Cursor := ⟨c.position + n, c.rest⟩

/-- The same step of lexing so many characters further on. -/
def movedStep (n : Nat) (a : Except LexError Token × Cursor) : Except LexError Token × Cursor :=
  (a.1.mapError (·.moved n), a.2.moved n)

@[simp] theorem movedStep_ok (n p : Nat) (t : Token) (cs : List Char) :
    movedStep n (.ok t, ⟨p, cs⟩) = (.ok t, ⟨p + n, cs⟩) := rfl

@[simp] theorem movedStep_error (n p q : Nat) (fault : LexFault) (cs : List Char) :
    movedStep n (.error ⟨q, fault⟩, ⟨p, cs⟩) = (.error ⟨q + n, fault⟩, ⟨p + n, cs⟩) := rfl

/-! ## Steps of lexing -/

theorem skip_moved (inComment : Bool) (n p : Nat) (cs : List Char) :
    skip inComment (p + n) cs = (skip inComment p cs).moved n := by
  induction cs generalizing inComment p with
  | nil => rfl
  | cons c cs ih =>
    simp only [skip, Nat.add_right_comm p n 1, ih]
    split
    · rfl
    · split
      · rfl
      · split <;> rfl

theorem word_moved (n p : Nat) (cs : List Char) :
    word ⟨p + n, cs⟩ = ((word ⟨p, cs⟩).1, (word ⟨p, cs⟩).2.moved n) := by
  unfold word moved
  dsimp only
  rw [Nat.add_right_comm]

theorem stringBody_moved (n start : Nat) (done : List Char) (p : Nat) (cs : List Char) :
    stringBody (start + n) done (p + n) cs = movedStep n (stringBody start done p cs) := by
  fun_induction stringBody start done p cs with
  | case1 => rfl
  | case2 done p => simp [stringBody, Nat.add_right_comm]
  | case3 done p c cs d hd ih =>
    rw [stringBody, hd]
    simpa only [Nat.add_right_comm] using ih
  | case4 done p c cs hd =>
    rw [stringBody, hd]
    simp [Nat.add_right_comm]
  | case5 done p cs h₁ h₂ =>
    rw [stringBody]
    · simp [Nat.add_right_comm]
    · simp
    · simp
  | case6 done p c cs h₁ h₂ hc ih =>
    rw [stringBody]
    · simpa only [if_neg hc, Nat.add_right_comm] using ih
    · exact h₁
    · exact h₂

theorem number_moved (n p : Nat) (cs : List Char) :
    number (p + n) cs = (number p cs).mapError (·.moved n) := by
  unfold number
  split
  · rfl
  · split <;> rfl

theorem keyword_moved (n p : Nat) (cs : List Char) :
    keyword ⟨p + n, cs⟩ = movedStep n (keyword ⟨p, cs⟩) := by
  unfold keyword
  dsimp only
  split
  · simp only [Nat.add_right_comm p n 1, word_moved]
    split <;> rfl
  · simp only [word_moved]
    split <;> rfl

theorem token_moved (n p : Nat) (c : Char) (cs : List Char) :
    token (p + n) c cs = movedStep n (token p c cs) := by
  unfold token
  simp only [Nat.add_right_comm p n 1]
  split
  · rfl
  · rfl
  · split
    · rfl
    · split
      · exact stringBody_moved _ _ _ _ _
      · split
        · exact keyword_moved _ _ _
        · simp only [word_moved]
          split
          · exact congrArg (·, _) (number_moved _ _ _)
          · rfl

theorem next?_moved (n : Nat) (c : Cursor) : (c.moved n).next? = c.next?.map (movedStep n) := by
  have hskip : skip false (c.moved n).position (c.moved n).rest = (skip false c.position c.rest).moved n :=
    skip_moved false n c.position c.rest
  unfold next?
  rw [hskip]
  generalize skip false c.position c.rest = s
  obtain ⟨q, _ | ⟨d, ds⟩⟩ := s
  · rfl
  · exact congrArg some (token_moved n q d ds)

theorem lexemesUpTo_moved (n count : Nat) (c : Cursor) :
    lexemesUpTo count (c.moved n) = (lexemesUpTo count c).map (·.moved n) := by
  induction count generalizing c with
  | zero => rfl
  | succ count ih =>
    unfold lexemesUpTo
    rw [next?_moved]
    cases c.next? with
    | none => rfl
    | some step =>
      obtain ⟨r, c'⟩ := step
      exact congrArg (_ :: ·) (ih c')

/-- Further on in a text the same characters give the same lexemes, further on. -/
theorem lexemes_moved (n : Nat) (c : Cursor) : (c.moved n).lexemes = c.lexemes.map (·.moved n) :=
  lexemesUpTo_moved n _ c

/-! ## Positions count characters -/

theorem position_skip (inComment : Bool) (p : Nat) (cs : List Char) :
    (skip inComment p cs).position + (skip inComment p cs).rest.length = p + cs.length := by
  induction cs generalizing inComment p with
  | nil => rfl
  | cons c cs ih =>
    simp only [skip]
    split
    · rw [ih, List.length_cons, Nat.add_right_comm, Nat.add_assoc]
    · split
      · rw [ih, List.length_cons, Nat.add_right_comm, Nat.add_assoc]
      · split
        · rw [ih, List.length_cons, Nat.add_right_comm, Nat.add_assoc]
        · rfl

theorem position_word (c : Cursor) :
    c.word.2.position + c.word.2.rest.length = c.position + c.rest.length := by
  have h := congrArg List.length c.word_append
  rw [List.length_append] at h
  rw [← h, ← Nat.add_assoc]
  rfl

theorem position_stringBody (start : Nat) (done : List Char) (p : Nat) (cs : List Char) :
    (stringBody start done p cs).2.position + (stringBody start done p cs).2.rest.length =
      p + cs.length := by
  fun_induction stringBody start done p cs <;> simp_all <;> omega

theorem position_keyword (c : Cursor) :
    c.keyword.2.position + c.keyword.2.rest.length = c.position + c.rest.length := by
  unfold keyword
  split
  rename_i auto d hd
  have hcolon : d.position + d.rest.length = c.position + c.rest.length := by
    split at hd
    · rename_i cs hcs
      obtain ⟨-, rfl⟩ := Prod.mk.inj hd
      rw [hcs, List.length_cons, Nat.add_right_comm, Nat.add_assoc]
    · obtain ⟨-, rfl⟩ := Prod.mk.inj hd
      rfl
  rw [← hcolon, ← position_word d]
  dsimp only
  split <;> rfl

/-- A token moves the position over the characters that it takes. -/
theorem position_token (p : Nat) (c : Char) (cs : List Char) :
    (token p c cs).2.position + (token p c cs).2.rest.length = p + 1 + cs.length := by
  unfold token
  split
  · rfl
  · rfl
  · split
    · rfl
    · split
      · exact position_stringBody _ _ _ _
      · split
        · exact position_keyword _
        · have hw := position_word ⟨p, c :: cs⟩
          rw [List.length_cons, Nat.add_comm cs.length, ← Nat.add_assoc] at hw
          dsimp only
          split <;> exact hw

end Cursor

end SmallLisp
