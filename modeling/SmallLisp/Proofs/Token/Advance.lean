import SmallLisp.Proofs.Token.Written

/-!
# Moving on in a text

A lexer is a position in a text (`Cursor.Within`) that each step moves on (`Cursor.advance`). Wherever it stands, a
step that finds a token or a fault moves it forward, but never past the end of the text. A step finds nothing just if
only blanks, commas and comments are left (`OnlySkipped`), and then the lexer stays where the text ends
(`Cursor.Within.advances`).
-/

namespace SmallLisp

variable {text : String} {cs : List Char}

/-- Blanks, commas and comments. The last comment need not end with its line. -/
inductive OnlySkipped : List Char → Prop
  /-- Nothing. -/
  | nil : OnlySkipped []
  /-- A blank or a comma in front. -/
  | skipped {c : Char} {cs : List Char} (h : (Text.isBlank c || c == ',') = true) (behind : OnlySkipped cs) :
      OnlySkipped (c :: cs)
  /-- A comment in front, with the newline that ends it. -/
  | comment {comment cs : List Char} (h : '\n' ∉ comment) (behind : OnlySkipped cs) :
      OnlySkipped (';' :: (comment ++ '\n' :: cs))
  /-- A comment to the end of the text. -/
  | lastComment {comment : List Char} (h : '\n' ∉ comment) : OnlySkipped (';' :: comment)

/-- One more character in a comment. -/
theorem OnlySkipped.commented {c : Char} (h : OnlySkipped (';' :: cs)) (hc : c ≠ '\n') :
    OnlySkipped (';' :: c :: cs) := by
  cases h with
  | skipped h _ => exact absurd h (by decide)
  | @comment comment cs h behind =>
    have hlonger : '\n' ∉ c :: comment := List.not_mem_cons_of_ne_of_not_mem hc.symm h
    exact .comment hlonger behind
  | lastComment h => exact .lastComment (List.not_mem_cons_of_ne_of_not_mem hc.symm h)

namespace Cursor

variable {c c' : Cursor} {p : Nat}

/-! ## What is skipped -/

/-- Where skipping leaves nothing, only such characters stand there, perhaps behind the semicolon of a comment. -/
theorem onlySkipped_of_skip {inComment : Bool} (h : (skip inComment p cs).rest = []) :
    OnlySkipped (if inComment then ';' :: cs else cs) := by
  induction cs generalizing inComment p with
  | nil =>
    cases inComment with
    | true => exact .lastComment List.not_mem_nil
    | false => exact .nil
  | cons c cs ih =>
    rw [skip] at h
    cases inComment with
    | true =>
      have hbehind := ih h
      by_cases hc : c = '\n'
      · subst hc
        exact .comment List.not_mem_nil hbehind
      · rw [if_pos (bne_iff_ne.mpr hc)] at hbehind
        exact hbehind.commented hc
    | false =>
      rw [if_neg Bool.false_ne_true] at h
      split at h
      · rename_i hskipped
        exact .skipped hskipped (ih h)
      · split at h
        · rename_i hsemicolon
          rw [beq_iff_eq.mp hsemicolon]
          exact ih h
        · cases h

theorem rest_skip_comment {comment : List Char} (h : '\n' ∉ comment) (p : Nat) :
    (skip true p comment).rest = [] := by
  induction comment generalizing p with
  | nil => rfl
  | cons c comment ih =>
    have hc : '\n' ≠ c := List.ne_of_not_mem_cons h
    have hbehind := List.not_mem_of_not_mem_cons h
    rw [skip, if_pos rfl, bne_iff_ne.mpr hc.symm]
    exact ih hbehind (p + 1)

/-- All that is left is skipped just if only blanks, commas and comments are left. -/
theorem rest_skip_eq_nil_iff : (skip false p cs).rest = [] ↔ OnlySkipped cs := by
  refine ⟨onlySkipped_of_skip, fun h => ?_⟩
  induction h generalizing p with
  | nil => rfl
  | skipped h _ ih =>
    rw [skip, if_neg Bool.false_ne_true, if_pos h]
    exact ih
  | @comment comment cs h _ ih =>
    obtain ⟨q, hq⟩ := skip_comment h (p + 1) cs
    show (skip true (p + 1) (comment ++ '\n' :: cs)).rest = []
    rw [hq]
    exact ih
  | lastComment h => exact rest_skip_comment h (p + 1)

/-! ## Steps -/

/-- One step: the next token or fault, if one is left, and the cursor behind it; else the end of the text. -/
def advance (c : Cursor) : Option (Except LexError Token) × Cursor :=
  match skip false c.position c.rest with
  | ⟨p, []⟩ => (none, ⟨p, []⟩)
  | ⟨p, d :: cs⟩ => (some (token p d cs).1, (token p d cs).2)

/-- A step finds what there is next. -/
theorem next?_eq (c : Cursor) : c.next? = c.advance.1.map (·, c.advance.2) := by
  unfold next? advance
  generalize skip false c.position c.rest = s
  obtain ⟨p, _ | ⟨d, cs⟩⟩ := s <;> rfl

/-- The cursor is at a position of the text. -/
structure Within (text : String) (c : Cursor) : Prop where
  /-- The characters from there on end the text. -/
  rest : c.rest <:+ text.toList
  /-- The position is the number of the characters before it. -/
  position : c.position + c.rest.length = text.length

theorem within_start (text : String) : (start text).Within text :=
  ⟨List.suffix_refl _, (Nat.zero_add _).trans String.length_toList⟩

namespace Within

theorem position_le (h : c.Within text) : c.position ≤ text.length := by
  have hposition := h.position
  omega

theorem skip (h : c.Within text) : (skip false c.position c.rest).Within text :=
  ⟨(rest_skip_suffix _ _ _).trans h.rest, (position_skip _ _ _).trans h.position⟩

theorem advance (h : c.Within text) : c.advance.2.Within text := by
  have hskip := h.skip
  unfold Cursor.advance
  generalize Cursor.skip false c.position c.rest = s at hskip
  obtain ⟨p, _ | ⟨d, cs⟩⟩ := s
  · exact hskip
  · refine ⟨(rest_token_suffix p d cs).trans hskip.rest, ?_⟩
    rw [position_token, ← hskip.position, List.length_cons, Nat.add_right_comm, Nat.add_assoc]

end Within

/-- A token or a fault takes at least one character. -/
theorem length_rest_advance (h : c.advance.1.isSome) : c.advance.2.rest.length < c.rest.length := by
  obtain ⟨r, hr⟩ := Option.isSome_iff_exists.mp h
  have hnext : c.next? = some (r, c.advance.2) := by rw [next?_eq, hr, Option.map_some]
  exact length_rest_next? hnext

/-- A step leaves no more characters. -/
theorem length_rest_advance_le (c : Cursor) : c.advance.2.rest.length ≤ c.rest.length := by
  cases hr : c.advance.1 with
  | some r => exact (length_rest_advance (hr ▸ rfl)).le
  | none =>
    have hskip := length_rest_skip false c.position c.rest
    unfold advance at hr ⊢
    generalize skip false c.position c.rest = s at hskip hr ⊢
    obtain ⟨p, _ | ⟨d, cs⟩⟩ := s
    · exact hskip
    · cases hr

/-- Nothing is found just if only blanks, commas and comments are left. -/
theorem advance_eq_none_iff : c.advance.1 = none ↔ OnlySkipped c.rest := by
  rw [← rest_skip_eq_nil_iff (p := c.position)]
  unfold advance
  generalize skip false c.position c.rest = s
  obtain ⟨p, _ | ⟨d, cs⟩⟩ := s
  · exact iff_of_true rfl rfl
  · exact iff_of_false nofun nofun

/-- Where nothing was found, nothing is found again. -/
theorem advance_of_none (h : c.advance.1 = none) : c.advance.2.advance = (none, c.advance.2) := by
  unfold advance at h ⊢
  generalize skip false c.position c.rest = s at h ⊢
  obtain ⟨p, _ | ⟨d, cs⟩⟩ := s
  · rfl
  · cases h

/-- What a step does anywhere in a text: it stays within the text; with a token or a fault it moves forward; without
one, which means that only blanks, commas and comments were left, there is none in the next step either. -/
structure Advances (text : String) (c : Cursor) : Prop where
  within : c.advance.2.Within text
  position_le : c.advance.2.position ≤ text.length
  position_lt : c.advance.1.isSome → c.position < c.advance.2.position
  none_iff : c.advance.1 = none ↔ OnlySkipped c.rest
  none_again : c.advance.1 = none → c.advance.2.advance = (none, c.advance.2)

theorem Within.advances (h : c.Within text) : c.Advances text where
  within := h.advance
  position_le := h.advance.position_le
  position_lt hsome := by
    have hlength := length_rest_advance hsome
    have hbefore := h.position
    have hafter := h.advance.position
    omega
  none_iff := advance_eq_none_iff
  none_again := advance_of_none

end Cursor

end SmallLisp
