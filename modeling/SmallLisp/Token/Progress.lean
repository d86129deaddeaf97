import SmallLisp.Token.Lexer

/-!
# Progress of lexing

Each step of lexing leaves fewer characters than it found (`Cursor.length_rest_next?`), so that a
text has no more lexemes than characters, and the lexemes of a cursor are its next one followed by
those of the cursor behind it (`Cursor.lexemes_eq`).
-/

namespace SmallLisp.Cursor

/-- Skipping leaves no more characters. -/
theorem length_rest_skip (inComment : Bool) (position : Nat) (cs : List Char) :
    (skip inComment position cs).rest.length ≤ cs.length := by
  induction cs generalizing inComment position with
  | nil => simp [skip]
  | cons c cs ih =>
    simp only [skip]
    split
    · exact Nat.le_succ_of_le (ih _ _)
    · split
      · exact Nat.le_succ_of_le (ih _ _)
      · split
        · exact Nat.le_succ_of_le (ih _ _)
        · simp

/-- Skipping ends at a character that would not be skipped. -/
theorem of_skip_eq_cons {inComment : Bool} {position q : Nat} {cs ds : List Char} {d : Char}
    (h : skip inComment position cs = ⟨q, d :: ds⟩) :
    Text.isBlank d = false ∧ d ≠ ',' ∧ d ≠ ';' := by
  induction cs generalizing inComment position with
  | nil => simp [skip] at h
  | cons c cs ih =>
    simp only [skip] at h
    split at h
    · exact ih h
    · split at h
      · exact ih h
      · split at h
        · exact ih h
        · simp_all

/-- A word and what follows it make up the characters from the cursor on. -/
theorem word_append (c : Cursor) : c.word.1 ++ c.word.2.rest = c.rest := by
  simp [word, List.takeWhile_append_dropWhile]

/-- Taking a word leaves no more characters. -/
theorem length_rest_word (c : Cursor) : c.word.2.rest.length ≤ c.rest.length := by
  have h := congrArg List.length c.word_append
  simp only [List.length_append] at h
  omega

/-- A word that begins with no delimiter has a character. -/
theorem length_rest_word_lt {position : Nat} {c : Char} {cs : List Char}
    (h : isDelimiter c = false) :
    (word ⟨position, c :: cs⟩).2.rest.length < (c :: cs).length := by
  have hw := congrArg List.length (word_append ⟨position, c :: cs⟩)
  simp only [List.length_append, word, List.takeWhile_cons, h] at hw ⊢
  simp at hw ⊢
  omega

/-- Reading the inside of a string leaves no more characters. -/
theorem length_rest_stringBody (start : Nat) (done : List Char) (position : Nat)
    (cs : List Char) : (stringBody start done position cs).2.rest.length ≤ cs.length := by
  fun_induction stringBody start done position cs <;> simp_all <;> omega

/-- Reading a keyword leaves no more characters. -/
theorem length_rest_keyword (c : Cursor) : c.keyword.2.rest.length ≤ c.rest.length := by
  simp only [keyword]
  split
  · rename_i cs h
    have hw := length_rest_word ⟨c.position + 1, cs⟩
    split <;> simp_all <;> omega
  · have hw := length_rest_word c
    split <;> simp_all

/-- A token takes at least its first character. -/
theorem length_rest_token {position : Nat} {c : Char} {cs : List Char}
    (h : Text.isBlank c = false ∧ c ≠ ',' ∧ c ≠ ';') :
    (token position c cs).2.rest.length < (c :: cs).length := by
  unfold token
  split
  · simp
  · simp
  · rename_i ho hc
    split
    · simp
    · split
      · have hs := length_rest_stringBody position [] (position + 1) cs
        simp only [List.length_cons]
        omega
      · split
        · have hk := length_rest_keyword ⟨position + 1, cs⟩
          simp only [List.length_cons]
          simp only at hk
          omega
        · have hd : isDelimiter c = false := by
            grind [isDelimiter, Bracket.ofOpener?, Bracket.ofCloser?]
          have hw : (word ⟨position, c :: cs⟩).2.rest.length < (c :: cs).length :=
            length_rest_word_lt hd
          dsimp only
          split <;> exact hw

/-- A step of lexing takes at least one character. -/
theorem length_rest_next? {c c' : Cursor} {r : Except LexError Token}
    (h : c.next? = some (r, c')) : c'.rest.length < c.rest.length := by
  unfold next? at h
  split at h
  · cases h
  · rename_i q d ds hs
    have hl := length_rest_skip false c.position c.rest
    have ht : (token q d ds).2.rest.length < (d :: ds).length :=
      length_rest_token (of_skip_eq_cons hs)
    rw [hs] at hl
    rw [Option.some.inj h] at ht
    exact Nat.lt_of_lt_of_le ht hl

/-- A count that is no smaller than the number of characters bounds nothing. -/
theorem lexemesUpTo_eq {count : Nat} {c : Cursor} (h : c.rest.length ≤ count) :
    lexemesUpTo count c = c.lexemes := by
  induction count using Nat.strongRecOn generalizing c with
  | ind count ih =>
    by_cases hc : count = c.rest.length
    · rw [hc, lexemes]
    · obtain ⟨n, rfl⟩ : ∃ n, count = n + 1 := ⟨count - 1, by omega⟩
      cases hn : c.next? with
      | none => cases hl : c.rest.length <;> simp [lexemes, lexemesUpTo, hn, hl]
      | some next =>
        obtain ⟨r, c'⟩ := next
        have hlt := length_rest_next? hn
        obtain ⟨m, hm⟩ : ∃ m, c.rest.length = m + 1 := ⟨c.rest.length - 1, by omega⟩
        simp only [lexemes, hm, lexemesUpTo, hn]
        rw [ih n (by omega) (by omega), ih m (by omega) (by omega)]

/-- The lexemes of a cursor are its next one and those of the cursor behind it. -/
theorem lexemes_eq (c : Cursor) : c.lexemes =
    match c.next? with
    | none => []
    | some (r, c') => ⟨r, c'.position⟩ :: c'.lexemes := by
  rw [← lexemesUpTo_eq (Nat.le_succ c.rest.length), lexemesUpTo]
  cases hn : c.next? with
  | none => rfl
  | some next =>
    have hlt := length_rest_next? hn
    dsimp only
    rw [lexemesUpTo_eq (Nat.le_of_lt hlt)]

/-- There are no more lexemes than characters. -/
theorem length_lexemes_le (c : Cursor) : c.lexemes.length ≤ c.rest.length := by
  suffices h : ∀ count c, (lexemesUpTo count c).length ≤ count from h _ c
  intro count
  induction count with
  | zero => simp [lexemesUpTo]
  | succ count ih =>
    intro c
    simp only [lexemesUpTo]
    split
    · simp
    · simpa using ih _

end SmallLisp.Cursor
