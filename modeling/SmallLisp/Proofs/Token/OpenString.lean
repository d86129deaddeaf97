import SmallLisp.Proofs.Token.Cut

/-!
# Strings that are left open

A string without its closing quote takes the text to its end, so it is the last lexeme
(`eq_nil_of_unterminated`). What comes behind the end of a line goes on inside of it, and everything before the
string stays as it is (`exists_open_string`). So a quote there closes the string (`kinds_append_quote`), and the
end of the line by itself does not (`kinds_newline`).
-/

namespace SmallLisp

open Cursor

variable {cs : List Char}

/-- What a text that ends with its line ends with does so as well. -/
theorem line_of_suffix {bs : List Char} (hline : ∀ c, cs.getLast? = some c → c = '\n')
    (h : bs <:+ cs) : ∀ c, bs.getLast? = some c → c = '\n' := by
  intro c hc
  obtain ⟨as, rfl⟩ := h
  refine hline c ?_
  rw [List.getLast?_append, hc]
  rfl

namespace Cursor

theorem rest_stringBody_of_unterminated {start : Nat} {done : List Char} {p : Nat}
    (h : (stringBody start done p cs).1.mapError LexError.fault = .error .unterminatedString) :
    (stringBody start done p cs).2.rest = [] := by
  fun_induction stringBody start done p cs with
  | case1 => rfl
  | case2 => rfl
  | case3 done p c cs d hd ih => exact ih h
  | case4 done p c cs hd => cases h
  | case5 done p cs h₁ h₂ => cases h
  | case6 done p c cs h₁ h₂ hc ih => exact ih h

theorem number_ne_unterminated (p : Nat) (cs : List Char) :
    (number p cs).mapError LexError.fault ≠ .error .unterminatedString := by
  unfold number
  split
  · exact nofun
  · split <;> exact nofun

theorem keyword_ne_unterminated (p : Nat) (cs : List Char) :
    (keyword ⟨p, cs⟩).1.mapError LexError.fault ≠ .error .unterminatedString := by
  have named : ∀ auto (c : Cursor),
      (namedKeyword auto c).1.mapError LexError.fault ≠ .error .unterminatedString := by
    intro auto c
    unfold namedKeyword
    split <;> exact nofun
  by_cases hcolon : cs.head? = some ':'
  · obtain ⟨cs', rfl⟩ := List.head?_eq_some_iff.mp hcolon
    exact named true _
  · rw [keyword_of_head_ne p hcolon]
    exact named false _

/-- Only a string can be left open. -/
theorem token_of_unterminated {p : Nat} {c : Char}
    (h : (token p c cs).1.mapError LexError.fault = .error .unterminatedString) :
    ∀ p cs, token p c cs = stringBody p [] (p + 1) cs := by
  obtain ⟨t, hone⟩ | hstring | hkeyword | hword := token_cases c
  · rw [hone] at h
    cases h
  · exact hstring
  · rw [hkeyword] at h
    exact absurd h (keyword_ne_unterminated _ _)
  · rw [hword] at h
    split at h
    · exact absurd h (number_ne_unterminated _ _)
    · cases h

theorem rest_token_of_unterminated {p : Nat} {c : Char}
    (h : (token p c cs).1.mapError LexError.fault = .error .unterminatedString) :
    (token p c cs).2.rest = [] := by
  have hstring := token_of_unterminated h p cs
  rw [hstring] at h ⊢
  exact rest_stringBody_of_unterminated h

/-- A quote behind the end of a line closes a string that the line leaves open. -/
theorem stringBody_append_quote {start : Nat} {done : List Char} {p : Nat}
    (h : (stringBody start done p cs).1.mapError LexError.fault = .error .unterminatedString)
    (hline : ∀ c, cs.getLast? = some c → c = '\n') :
    ∃ text, ∀ ds, (stringBody start done p (cs ++ '"' :: ds)).1 = .ok (.str text) ∧
      (stringBody start done p (cs ++ '"' :: ds)).2.rest = ds := by
  fun_induction stringBody start done p cs with
  | case1 done p =>
    refine ⟨String.ofList done.reverse, fun ds => ?_⟩
    rw [List.nil_append, stringBody_quote]
    exact ⟨rfl, rfl⟩
  | case2 =>
    -- A line does not end with a backslash.
    have hlast := hline '\\' rfl
    cases hlast
  | case3 done p c cs d hd ih =>
    obtain ⟨text, htext⟩ :=
      ih h (line_of_suffix hline ((List.suffix_cons _ _).trans (List.suffix_cons _ _)))
    refine ⟨text, fun ds => ?_⟩
    simp only [List.cons_append]
    rw [stringBody, hd]
    exact htext ds
  | case4 done p c cs hd => cases h
  | case5 done p cs h₁ h₂ => cases h
  | case6 done p c cs h₁ h₂ hc ih =>
    obtain ⟨text, htext⟩ := ih h (line_of_suffix hline (List.suffix_cons _ _))
    refine ⟨text, fun ds => ?_⟩
    rw [List.cons_append, stringBody_char _ _ _ (ne_backslash h₁ h₂) hc]
    exact htext ds

/-- The end of the line does not close a string that the line leaves open; it may make a bad escape of a last
backslash. -/
theorem stringBody_append_newline {start : Nat} {done : List Char} {p : Nat}
    (h : (stringBody start done p cs).1.mapError LexError.fault = .error .unterminatedString) :
    ∃ e, (stringBody start done p (cs ++ ['\n'])).1 = .error e := by
  fun_induction stringBody start done p cs with
  | case1 => exact ⟨_, rfl⟩
  | case2 => exact ⟨_, rfl⟩
  | case3 done p c cs d hd ih =>
    obtain ⟨e, he⟩ := ih h
    refine ⟨e, ?_⟩
    simp only [List.cons_append]
    rw [stringBody, hd]
    exact he
  | case4 done p c cs hd => cases h
  | case5 done p cs h₁ h₂ => cases h
  | case6 done p c cs h₁ h₂ hc ih =>
    obtain ⟨e, he⟩ := ih h
    refine ⟨e, ?_⟩
    rw [List.cons_append, stringBody_char _ _ _ (ne_backslash h₁ h₂) hc]
    exact he

end Cursor

theorem skip_append_cons {d : Char} {rest ds : List Char} (hline : LineEnds cs ds)
    (h : (skip false 0 cs).rest = d :: rest) : (skip false 0 (cs ++ ds)).rest = d :: (rest ++ ds) := by
  rw [skip_append false 0 0 hline nofun, h]
  rfl

/-- Nothing comes behind a string that is left open. -/
theorem eq_nil_of_unterminated {ks ls : List (Except LexFault Token)}
    (h : kinds cs = ks ++ .error .unterminatedString :: ls) : ls = [] := by
  induction ks generalizing cs with
  | nil =>
    obtain ⟨d, rest, -, hkind, hbehind⟩ := token_of_kinds h
    rw [rest_token_of_unterminated hkind, kinds_nil] at hbehind
    exact hbehind.symm
  | cons k ks ih =>
    obtain ⟨d, rest, -, -, hbehind⟩ := token_of_kinds h
    exact ih hbehind

/-- A text that leaves a string open ends inside of it. What comes behind the end of a line goes on there, and the
lexemes before the string stay as they are. -/
theorem exists_open_string {ks : List (Except LexFault Token)}
    (h : kinds cs = ks ++ [.error .unterminatedString]) :
    ∃ inside, inside <:+ cs ∧
      (stringBody 0 [] 1 inside).1.mapError LexError.fault = .error .unterminatedString ∧
      ∀ ds, LineEnds cs ds → kinds (cs ++ ds) =
        ks ++ (stringBody 0 [] 1 (inside ++ ds)).1.mapError LexError.fault ::
          kinds (stringBody 0 [] 1 (inside ++ ds)).2.rest := by
  induction ks generalizing cs with
  | nil =>
    obtain ⟨d, rest, hrest, hkind, -⟩ := token_of_kinds h
    have hstring := token_of_unterminated hkind
    have hbefore := rest_skip_suffix false 0 cs
    rw [hrest] at hbefore
    rw [hstring] at hkind
    refine ⟨rest, (List.suffix_cons d rest).trans hbefore, hkind, fun ds hline => ?_⟩
    rw [kinds_of_skip_cons (skip_append_cons hline hrest), hstring]
    rfl
  | cons k ks ih =>
    obtain ⟨d, rest, hrest, hkind, hbehind⟩ := token_of_kinds h
    have hbefore := rest_skip_suffix false 0 cs
    rw [hrest] at hbefore
    have hsuffix := (rest_token_suffix 0 d rest).trans hbefore
    obtain ⟨inside, hinside, hopen, hgoes⟩ := ih hbehind
    refine ⟨inside, hinside.trans hsuffix, hopen, fun ds hline => ?_⟩
    obtain ⟨htoken, hrest'⟩ | ⟨hunterminated, -⟩ :=
      token_append (d := d) 0 ((hline.suffix hbefore).stops (rest_skip_ne_newline hrest))
    · rw [kinds_of_skip_cons (skip_append_cons hline hrest), htoken, hrest', hkind,
        hgoes ds (hline.suffix hsuffix)]
      rfl
    · -- An open string would be the last lexeme.
      rw [rest_token_of_unterminated hunterminated, kinds_nil] at hbehind
      exact absurd hbehind.symm (List.append_ne_nil_of_right_ne_nil _ (List.cons_ne_nil _ _))

/-- A quote behind the end of a line closes the string that the line leaves open, and nothing else changes. -/
theorem kinds_append_quote {ks : List (Except LexFault Token)}
    (h : kinds cs = ks ++ [.error .unterminatedString])
    (hline : ∀ c, cs.getLast? = some c → c = '\n') :
    ∃ text, ∀ ds, kinds (cs ++ '"' :: ds) = ks ++ .ok (.str text) :: kinds ds := by
  obtain ⟨inside, hinside, hopen, hgoes⟩ := exists_open_string h
  obtain ⟨text, htext⟩ := stringBody_append_quote hopen (line_of_suffix hline hinside)
  refine ⟨text, fun ds => ?_⟩
  obtain ⟨hclosed, hrest⟩ := htext ds
  rw [hgoes _ (.inl hline), hclosed, hrest]
  rfl

/-- A line feed behind a text changes nothing, unless it goes into a string that the text leaves open. Such a
string is faulty behind the line feed as well. -/
theorem kinds_newline (cs : List Char) :
    kinds (cs ++ ['\n']) = kinds cs ∨ ∃ ks fault ls, kinds cs = ks ++ [.error .unterminatedString] ∧
      kinds (cs ++ ['\n']) = ks ++ .error fault :: ls := by
  have hline : LineEnds cs ['\n'] := .inr rfl
  obtain happ | ⟨ks, hks, -⟩ := kinds_append hline
  · have hnil : kinds ['\n'] = [] := kinds_of_skip_nil (p := 0) rfl
    rw [happ, hnil, List.append_nil]
    exact .inl rfl
  · obtain ⟨inside, -, hopen, hgoes⟩ := exists_open_string hks
    obtain ⟨e, he⟩ := stringBody_append_newline hopen
    have hwhole := hgoes ['\n'] hline
    rw [he] at hwhole
    exact .inr ⟨ks, e.fault, _, hks, hwhole⟩

end SmallLisp
