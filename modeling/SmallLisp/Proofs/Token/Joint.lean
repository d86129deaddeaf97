import SmallLisp.Proofs.Token.Boundary

/-!
# Two texts in one

If a line ends between two texts, and the first one leaves no string open, the lexemes of both together are
those of the first one and then those of the second one, which stand further on by the length of the first
one (`Cursor.lexemes_append`). So it is with two texts that a line feed joins (`lex_newline`).
-/

namespace SmallLisp

namespace Cursor

variable {cs ds : List Char}

/-- The next step of lexing begins where skipping ends. -/
theorem next?_congr {c c' : Cursor}
    (h : skip false c.position c.rest = skip false c'.position c'.rest) : c.next? = c'.next? := by
  unfold next?
  rw [h]

/-- Two cursors with the same characters are the same if these come after equally many. -/
theorem eq_of_rest {c c' : Cursor} (h : c.rest = c'.rest)
    (hp : c.position + c.rest.length = c'.position + c'.rest.length) : c = c' := by
  obtain ⟨p, rest⟩ := c
  obtain ⟨q, rest'⟩ := c'
  obtain rfl : rest = rest' := h
  exact congrArg (Cursor.mk · rest) (Nat.add_right_cancel hp)

/-- Where nothing of the first part is left, skipping goes on in the second one. -/
theorem skip_append_of_nil {p : Nat} (h : LineEnds cs ds) (hnil : (skip false p cs).rest = []) :
    skip false p (cs ++ ds) = skip false (p + cs.length) ds := by
  have hrest := skip_append false p (p + cs.length) h nofun
  rw [hnil] at hrest
  refine eq_of_rest hrest ?_
  rw [position_skip, position_skip, List.length_append, Nat.add_assoc]

/-- What skipping ends at in the first part does not depend on the second one. -/
theorem position_skip_append {p : Nat} {d : Char} {rest : List Char} (h : LineEnds cs ds)
    (hcons : (skip false p cs).rest = d :: rest) :
    skip false p (cs ++ ds) = ⟨(skip false p cs).position, d :: (rest ++ ds)⟩ := by
  have hrest := skip_append false p p h nofun
  rw [hcons] at hrest
  refine eq_of_rest hrest ?_
  have hfirst := position_skip false p cs
  rw [hcons, List.length_cons] at hfirst
  rw [position_skip, List.length_append]
  simp only [List.length_cons, List.length_append]
  omega

/-- A token is the same in front of another text, unless it is a string that is left open. -/
theorem token_append_eq (p : Nat) {d : Char} (h : Stops cs ds) :
    token p d (cs ++ ds) =
        ((token p d cs).1, ⟨(token p d cs).2.position, (token p d cs).2.rest ++ ds⟩) ∨
      Unterminated (token p d cs) := by
  refine (token_append p h).imp_left fun ⟨hresult, hrest⟩ => ?_
  refine Prod.ext hresult (eq_of_rest hrest ?_)
  have hpart := position_token p d cs
  rw [position_token, List.length_append]
  simp only [List.length_append]
  omega

/-- Where a line ends a text can be cut: its lexemes are those of the first part, if that leaves no string
open, and then those of the second one. -/
theorem lexemes_append (p : Nat) (h : LineEnds cs ds)
    (hclosed : ∀ l ∈ (⟨p, cs⟩ : Cursor).lexemes, l.kind ≠ .error .unterminatedString) :
    (⟨p, cs ++ ds⟩ : Cursor).lexemes =
      (⟨p, cs⟩ : Cursor).lexemes ++ (⟨p + cs.length, ds⟩ : Cursor).lexemes := by
  induction hn : cs.length using Nat.strongRecOn generalizing p cs with
  | ind n ih =>
    subst hn
    cases hrest : (skip false p cs).rest with
    | nil =>
      have hnext : next? ⟨p, cs ++ ds⟩ = next? ⟨p + cs.length, ds⟩ :=
        next?_congr (skip_append_of_nil h hrest)
      rw [lexemes_eq ⟨p, cs⟩, next?_of_skip_nil hrest, lexemes_eq, hnext, ← lexemes_eq]
      rfl
    | cons d rest =>
      have hnext := next?_of_skip_cons hrest
      have hwhole : next? ⟨p, cs ++ ds⟩ =
          some (token (skip false p cs).position d (rest ++ ds)) := by
        have hskip := position_skip_append h hrest
        rw [next?_of_skip_cons (congrArg Cursor.rest hskip), hskip]
      have hlt : (token (skip false p cs).position d rest).2.rest.length < cs.length :=
        length_rest_next? (r := (token (skip false p cs).position d rest).1) hnext
      have hends := h.suffix (hrest ▸ rest_skip_suffix false p cs)
      have hne : d ≠ '\n' := rest_skip_ne_newline ((rest_skip false 0 p cs).trans hrest)
      have hcount := position_skip false p cs
      rw [hrest, List.length_cons] at hcount
      rw [lexemes_eq, hnext] at hclosed
      rw [lexemes_eq, hwhole, lexemes_eq ⟨p, cs⟩, hnext]
      have htoken := position_token (skip false p cs).position d rest
      have hsuffix := hends.suffix (rest_token_suffix (skip false p cs).position d rest)
      obtain heq | ⟨hkind, -⟩ := token_append_eq (d := d) (skip false p cs).position (hends.stops hne)
      · rw [heq]
        generalize token (skip false p cs).position d rest = a at *
        obtain ⟨r, ⟨q, after⟩⟩ := a
        dsimp only at *
        have hstop : q + after.length = p + cs.length := by omega
        have htail := ih after.length hlt q hsuffix (fun l hl => hclosed l (List.mem_cons_of_mem _ hl)) rfl
        rw [htail, hstop]
        rfl
      · exact absurd hkind (hclosed _ (List.mem_cons_self ..))

/-- A line feed is passed over. -/
theorem lexemes_newline (p : Nat) (cs : List Char) :
    (⟨p, '\n' :: cs⟩ : Cursor).lexemes = (⟨p + 1, cs⟩ : Cursor).lexemes := by
  have hnext : next? ⟨p, '\n' :: cs⟩ = next? ⟨p + 1, cs⟩ := next?_congr (skip_newline false p cs)
  rw [lexemes_eq, hnext, ← lexemes_eq]

end Cursor

/-- Two texts that a line feed joins have the lexemes of the first one, if that leaves no string open, and
then those of the second one, further on by the first text and the line feed. -/
theorem lex_newline {a b : String} (hclosed : ∀ l ∈ lex a, l.kind ≠ .error .unterminatedString) :
    lex (a ++ "\n" ++ b) = lex a ++ (lex b).map (·.moved (a.length + 1)) := by
  have hchars : (a ++ "\n" ++ b).toList = a.toList ++ '\n' :: b.toList := by simp
  have hstart : (⟨0 + a.toList.length + 1, b.toList⟩ : Cursor) = (Cursor.start b).moved (a.length + 1) := by
    simp [Cursor.moved, Cursor.start, String.length_toList]
  calc lex (a ++ "\n" ++ b)
    _ = (⟨0, a.toList ++ '\n' :: b.toList⟩ : Cursor).lexemes := by rw [← hchars]; rfl
    _ = lex a ++ (⟨0 + a.toList.length, '\n' :: b.toList⟩ : Cursor).lexemes :=
      Cursor.lexemes_append 0 (.inr rfl) hclosed
    _ = lex a ++ (lex b).map (·.moved (a.length + 1)) := by
      rw [Cursor.lexemes_newline, hstart, Cursor.lexemes_moved]
      rfl

end SmallLisp
