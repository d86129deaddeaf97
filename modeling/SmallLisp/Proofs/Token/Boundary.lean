import SmallLisp.Proofs.Token.Position

/-!
# Lexing at the ends of lines

What a text is lexed to does not depend on where it stands, positions apart (`kinds_cursor`). No token but a
string goes on over the end of a line. So if a text is cut there, its lexemes are those of the two parts one
after the other, unless the first part ends inside a string (`kinds_append`).
-/

namespace SmallLisp

/-- A result of lexing, positions apart. -/
def Lexeme.kind (l : Lexeme) : Except LexFault Token := l.result.mapError LexError.fault

theorem Lexeme.kind_moved (n : Nat) (l : Lexeme) : (l.moved n).kind = l.kind := by
  obtain ⟨r, stop⟩ := l
  cases r <;> rfl

namespace Cursor

/-- Two steps of lexing take the same off a text, positions apart. -/
def SameStep (a b : Except LexError Token × Cursor) : Prop :=
  a.1.mapError LexError.fault = b.1.mapError LexError.fault ∧ a.2.rest = b.2.rest

/-! ## Positions do not matter -/

theorem rest_skip (inComment : Bool) (p q : Nat) (cs : List Char) :
    (skip inComment p cs).rest = (skip inComment q cs).rest := by
  have atStart : ∀ n, (skip inComment n cs).rest = (skip inComment 0 cs).rest := fun n => by
    rw [← Nat.zero_add n, skip_moved]
    rfl
  exact (atStart p).trans (atStart q).symm

theorem stringBody_char (start : Nat) (done : List Char) (p : Nat) {c : Char} {cs : List Char}
    (hc : c ≠ '\\') (hq : c ≠ '"') :
    stringBody start done p (c :: cs) = stringBody start (c :: done) (p + 1) cs := by
  rw [stringBody]
  · rw [if_neg hq]
  · simp [hc]
  · simp [hc]

theorem stringBody_quote (start : Nat) (done : List Char) (p : Nat) (cs : List Char) :
    stringBody start done p ('"' :: cs) =
      (.ok (.str (String.ofList done.reverse)), ⟨p + 1, cs⟩) := by
  rw [stringBody]
  · rw [if_pos rfl]
  · simp
  · simp

/-- A character that begins no escape. -/
theorem ne_backslash {c : Char} {cs : List Char} (h₁ : c = '\\' → cs = [] → False)
    (h₂ : ∀ d ds, c = '\\' → cs = d :: ds → False) : c ≠ '\\' := by
  intro hc
  cases cs with
  | nil => exact h₁ hc rfl
  | cons d ds => exact h₂ d ds hc rfl

theorem sameStep_moved (n : Nat) (a : Except LexError Token × Cursor) : SameStep (movedStep n a) a := by
  obtain ⟨r, c⟩ := a
  cases r <;> exact ⟨rfl, rfl⟩

theorem sameStep_token (p q : Nat) (c : Char) (cs : List Char) :
    SameStep (token p c cs) (token q c cs) := by
  have atStart : ∀ n, SameStep (token n c cs) (token 0 c cs) := fun n => by
    rw [← Nat.zero_add n, token_moved]
    exact sameStep_moved n _
  exact ⟨(atStart p).1.trans (atStart q).1.symm, (atStart p).2.trans (atStart q).2.symm⟩

/-- Where the next step of lexing begins: at the first character that is not skipped. -/
theorem next?_of_skip_nil {p : Nat} {cs : List Char} (h : (skip false p cs).rest = []) :
    next? ⟨p, cs⟩ = none := by
  unfold next?
  generalize skip false p cs = c at h
  obtain ⟨q, rest⟩ := c
  obtain rfl : rest = [] := h
  rfl

theorem next?_of_skip_cons {p : Nat} {cs ds : List Char} {d : Char}
    (h : (skip false p cs).rest = d :: ds) :
    next? ⟨p, cs⟩ = some (token (skip false p cs).position d ds) := by
  unfold next?
  generalize skip false p cs = c at h ⊢
  obtain ⟨q, rest⟩ := c
  obtain rfl : rest = d :: ds := h
  rfl

end Cursor

/-- What a text is lexed to, positions apart. -/
def kinds (cs : List Char) : List (Except LexFault Token) :=
  (⟨0, cs⟩ : Cursor).lexemes.map Lexeme.kind

open Cursor

/-- Lexing is the same at every position. -/
theorem kinds_cursor (p : Nat) (cs : List Char) :
    (⟨p, cs⟩ : Cursor).lexemes.map Lexeme.kind = kinds cs := by
  have hmoved : (⟨p, cs⟩ : Cursor) = moved p ⟨0, cs⟩ := by rw [moved, Nat.zero_add]
  rw [hmoved, lexemes_moved, List.map_map]
  exact List.map_congr_left fun l _ => Lexeme.kind_moved p l

/-- The first step of lexing, and the text after it. -/
theorem kinds_of_skip_cons {p : Nat} {cs ds : List Char} {d : Char}
    (h : (skip false p cs).rest = d :: ds) :
    kinds cs = (token 0 d ds).1.mapError LexError.fault :: kinds (token 0 d ds).2.rest := by
  obtain ⟨hkind, hrest⟩ := sameStep_token (skip false p cs).position 0 d ds
  rw [← kinds_cursor p, lexemes_eq, next?_of_skip_cons h]
  simp only [List.map_cons]
  rw [kinds_cursor, hrest, ← hkind]
  rfl

theorem kinds_of_skip_nil {p : Nat} {cs : List Char} (h : (skip false p cs).rest = []) :
    kinds cs = [] := by
  rw [← kinds_cursor p, lexemes_eq, next?_of_skip_nil h]
  rfl

/-! ## Ends of lines -/

/-- A line ends between the two parts of a text: the first one ends with a line feed, if it is not empty,
or the second one begins with one. -/
def LineEnds (cs ds : List Char) : Prop :=
  (∀ c, cs.getLast? = some c → c = '\n') ∨ ds.head? = some '\n'

/-- Whatever the first part ends with, a line feed comes before anything else. -/
def Stops (cs ds : List Char) : Prop := '\n' ∈ cs ∨ ds.head? = some '\n'

variable {cs ds : List Char} {c d : Char}

theorem LineEnds.suffix {bs : List Char} (h : LineEnds cs ds) (hs : bs <:+ cs) : LineEnds bs ds := by
  obtain ⟨as, rfl⟩ := hs
  refine h.imp_left fun h c hc => h c ?_
  rw [List.getLast?_append, hc]
  rfl

theorem LineEnds.stops (h : LineEnds (d :: cs) ds) (hd : d ≠ '\n') : Stops cs ds := by
  refine h.imp_left fun h => ?_
  have hlast := h _ (List.getLast?_eq_some_getLast (List.cons_ne_nil d cs))
  have hmem := List.getLast_mem (List.cons_ne_nil d cs)
  rw [hlast] at hmem
  exact (List.mem_cons.mp hmem).resolve_left fun heq => hd heq.symm

theorem skip_newline (inComment : Bool) (p : Nat) (cs : List Char) :
    skip inComment p ('\n' :: cs) = skip false (p + 1) cs := by
  cases inComment <;> rfl

/-- Skipping goes over the end of a line, where no comment is left open. -/
theorem skip_append (inComment : Bool) (p q : Nat) (h : LineEnds cs ds)
    (hc : inComment = true → cs ≠ [] ∨ ds.head? = some '\n') :
    (skip inComment p (cs ++ ds)).rest =
      match (skip inComment p cs).rest with
      | [] => (skip false q ds).rest
      | d :: rest => d :: rest ++ ds := by
  induction cs generalizing inComment p with
  | nil =>
    cases inComment with
    | false => exact rest_skip _ _ _ _
    | true =>
      obtain hnil | hhead := hc rfl
      · exact absurd rfl hnil
      · obtain ⟨ds', rfl⟩ := List.head?_eq_some_iff.mp hhead
        simp only [List.nil_append, skip_newline]
        exact rest_skip _ _ _ _
  | cons c cs ih =>
    have htail := h.suffix (List.suffix_cons c cs)
    simp only [List.cons_append, skip]
    split
    · -- In a comment, which the line feed that ends the line closes.
      refine ih _ _ htail fun hopen => ?_
      have hne : c ≠ '\n' := by simpa using hopen
      exact (h.stops hne).imp_left List.ne_nil_of_mem
    · split
      · exact ih _ _ htail fun hopen => absurd hopen Bool.false_ne_true
      · split
        · rename_i hsemi
          have hne : c ≠ '\n' := by
            rintro rfl
            exact absurd hsemi (by decide)
          exact ih _ _ htail fun _ => (h.stops hne).imp_left List.ne_nil_of_mem
        · rfl

/-- A word ends at the end of the line. -/
theorem word_append_of_stops (p : Nat) (h : Stops cs ds) :
    (word ⟨p, cs ++ ds⟩).1 = (word ⟨p, cs⟩).1 ∧
      (word ⟨p, cs ++ ds⟩).2.rest = (word ⟨p, cs⟩).2.rest ++ ds := by
  unfold word
  dsimp only
  induction cs with
  | nil =>
    obtain hmem | hhead := h
    · cases hmem
    · obtain ⟨ds', rfl⟩ := List.head?_eq_some_iff.mp hhead
      exact ⟨rfl, rfl⟩
  | cons c cs ih =>
    simp only [List.cons_append, List.takeWhile_cons, List.dropWhile_cons]
    by_cases hc : isDelimiter c = true
    · simp [hc]
    · have hstops : Stops cs ds := by
        refine h.imp_left fun hmem => (List.mem_cons.mp hmem).resolve_left ?_
        rintro rfl
        exact hc (by decide)
      obtain ⟨htaken, hrest⟩ := ih hstops
      simp only [hc, Bool.not_false, if_true]
      exact ⟨congrArg _ htaken, hrest⟩

/-- A step of lexing that takes the same where another text follows. -/
def Unchanged (ds : List Char) (a b : Except LexError Token × Cursor) : Prop :=
  a.1 = b.1 ∧ a.2.rest = b.2.rest ++ ds

/-- A string that the text ends in. -/
def Unterminated (a : Except LexError Token × Cursor) : Prop :=
  a.1.mapError LexError.fault = .error .unterminatedString ∧ a.2.rest = []

theorem stringBody_append (start : Nat) (done : List Char) (p : Nat) (cs ds : List Char) :
    Unchanged ds (stringBody start done p (cs ++ ds)) (stringBody start done p cs) ∨
      Unterminated (stringBody start done p cs) := by
  fun_induction stringBody start done p cs with
  | case1 => exact .inr ⟨rfl, rfl⟩
  | case2 => exact .inr ⟨rfl, rfl⟩
  | case3 done p c cs d hd ih =>
    simp only [List.cons_append]
    rw [stringBody, hd]
    exact ih
  | case4 done p c cs hd =>
    simp only [List.cons_append]
    rw [stringBody, hd]
    exact .inl ⟨rfl, rfl⟩
  | case5 done p cs h₁ h₂ =>
    rw [List.cons_append, stringBody_quote]
    exact .inl ⟨rfl, rfl⟩
  | case6 done p c cs h₁ h₂ hc ih =>
    rw [List.cons_append, stringBody_char _ _ _ (ne_backslash h₁ h₂) hc]
    exact ih

/-- Reads a keyword behind its colons. -/
def namedKeyword (auto : Bool) (c : Cursor) : Except LexError Token × Cursor :=
  if c.word.1.isEmpty || c.word.1.head? == some ':' then
    (.error ⟨c.word.2.position, .invalidKeyword⟩, c.word.2)
  else (.ok (.keyword (String.ofList c.word.1) auto), c.word.2)

theorem keyword_of_head_ne (p : Nat) (h : cs.head? ≠ some ':') :
    keyword ⟨p, cs⟩ = namedKeyword false ⟨p, cs⟩ := by
  unfold keyword
  dsimp only
  split
  · exact absurd rfl h
  · rfl

theorem namedKeyword_append (auto : Bool) (p : Nat) (h : Stops cs ds) :
    Unchanged ds (namedKeyword auto ⟨p, cs ++ ds⟩) (namedKeyword auto ⟨p, cs⟩) := by
  obtain ⟨htaken, hrest⟩ := word_append_of_stops p h
  have hposition : (word ⟨p, cs ++ ds⟩).2.position = (word ⟨p, cs⟩).2.position :=
    congrArg (p + List.length ·) htaken
  unfold namedKeyword
  rw [htaken, hposition]
  split <;> exact ⟨rfl, hrest⟩

theorem keyword_append (p : Nat) (h : Stops cs ds) :
    Unchanged ds (keyword ⟨p, cs ++ ds⟩) (keyword ⟨p, cs⟩) := by
  by_cases hcolon : cs.head? = some ':'
  · obtain ⟨cs', rfl⟩ := List.head?_eq_some_iff.mp hcolon
    have hstops : Stops cs' ds := h.imp_left fun hmem =>
      (List.mem_cons.mp hmem).resolve_left (by decide)
    exact namedKeyword_append true (p + 1) hstops
  · have hcolon' : (cs ++ ds).head? ≠ some ':' := by
      cases cs with
      | nil =>
        obtain hmem | hhead := h
        · cases hmem
        · simp [hhead]
      | cons c cs => exact hcolon
    rw [keyword_of_head_ne p hcolon, keyword_of_head_ne p hcolon']
    exact namedKeyword_append false p h

theorem startsNumber_append (h : Stops cs ds) :
    startsNumber (d :: (cs ++ ds)) = startsNumber (d :: cs) := by
  cases cs with
  | cons c cs => rfl
  | nil =>
    obtain hmem | hhead := h
    · cases hmem
    · obtain ⟨ds', rfl⟩ := List.head?_eq_some_iff.mp hhead
      -- A sign right before the end of the line is no number.
      simp [startsNumber, show '\n'.isDigit = false from by decide]

theorem token_append (p : Nat) (h : Stops cs ds) :
    Unchanged ds (token p d (cs ++ ds)) (token p d cs) ∨ Unterminated (token p d cs) := by
  unfold token
  split
  · exact .inl ⟨rfl, rfl⟩
  · exact .inl ⟨rfl, rfl⟩
  · split
    · exact .inl ⟨rfl, rfl⟩
    · split
      · exact stringBody_append _ _ _ _ _
      · split
        · exact .inl (keyword_append _ h)
        · have hstops : Stops (d :: cs) ds := h.imp_left (List.mem_cons_of_mem d)
          obtain ⟨htaken, hrest⟩ := word_append_of_stops p hstops
          rw [List.cons_append] at htaken hrest
          left
          dsimp only
          rw [startsNumber_append h, htaken]
          split <;> exact ⟨rfl, hrest⟩

/-! ## The parts of a text -/

theorem rest_stringBody_suffix (start : Nat) (done : List Char) (p : Nat) (cs : List Char) :
    (stringBody start done p cs).2.rest <:+ cs := by
  fun_induction stringBody start done p cs with
  | case1 => exact List.suffix_refl _
  | case2 => exact List.nil_suffix
  | case3 done p c cs d hd ih =>
    exact (ih.trans (List.suffix_cons _ _)).trans (List.suffix_cons _ _)
  | case4 done p c cs hd => exact List.suffix_cons _ _
  | case5 done p cs h₁ h₂ => exact List.suffix_cons _ _
  | case6 done p c cs h₁ h₂ hc ih => exact ih.trans (List.suffix_cons _ _)

theorem rest_keyword_suffix (p : Nat) (cs : List Char) : (keyword ⟨p, cs⟩).2.rest <:+ cs := by
  have named : ∀ auto q (bs : List Char), (namedKeyword auto ⟨q, bs⟩).2.rest <:+ bs := by
    intro auto q bs
    unfold namedKeyword
    split <;> exact List.dropWhile_suffix _
  by_cases hcolon : cs.head? = some ':'
  · obtain ⟨cs', rfl⟩ := List.head?_eq_some_iff.mp hcolon
    exact (named true (p + 1) cs').trans (List.suffix_cons _ _)
  · rw [keyword_of_head_ne p hcolon]
    exact named false p cs

theorem rest_token_suffix (p : Nat) (c : Char) (cs : List Char) :
    (token p c cs).2.rest <:+ c :: cs := by
  unfold token
  split
  · exact List.suffix_cons _ _
  · exact List.suffix_cons _ _
  · split
    · exact List.suffix_cons _ _
    · split
      · exact (rest_stringBody_suffix _ _ _ _).trans (List.suffix_cons _ _)
      · split
        · exact (rest_keyword_suffix _ _).trans (List.suffix_cons _ _)
        · dsimp only
          split <;> exact List.dropWhile_suffix _

theorem rest_skip_suffix (inComment : Bool) (p : Nat) (cs : List Char) :
    (skip inComment p cs).rest <:+ cs := by
  induction cs generalizing inComment p with
  | nil => exact List.suffix_refl _
  | cons c cs ih =>
    simp only [skip]
    split
    · exact (ih _ _).trans (List.suffix_cons _ _)
    · split
      · exact (ih _ _).trans (List.suffix_cons _ _)
      · split
        · exact (ih _ _).trans (List.suffix_cons _ _)
        · exact List.suffix_refl _

theorem rest_skip_ne_newline (h : (skip false 0 cs).rest = d :: ds) : d ≠ '\n' := by
  rintro rfl
  have hskip : skip false 0 cs = ⟨(skip false 0 cs).position, '\n' :: ds⟩ := by rw [← h]
  exact absurd (of_skip_eq_cons hskip).1 (by decide)

/-- Where a line ends a text can be cut: its lexemes are those of the first part and those of the second
one. Only if the first part ends inside a string there may be others, behind those before the string. -/
theorem kinds_append (h : LineEnds cs ds) :
    kinds (cs ++ ds) = kinds cs ++ kinds ds ∨
      ∃ ks, kinds cs = ks ++ [.error .unterminatedString] ∧ ks <+: kinds (cs ++ ds) := by
  induction hn : cs.length using Nat.strongRecOn generalizing cs with
  | ind n ih =>
    have hskip := skip_append false 0 0 h nofun
    cases hrest : (skip false 0 cs).rest with
    | nil =>
      -- Nothing of the first part is left, so the next step is one in the second part.
      rw [hrest] at hskip
      left
      rw [kinds_of_skip_nil hrest, List.nil_append]
      cases hds : (skip false 0 ds).rest with
      | nil => rw [kinds_of_skip_nil hds, kinds_of_skip_nil (hskip.trans hds)]
      | cons d rest => rw [kinds_of_skip_cons hds, kinds_of_skip_cons (hskip.trans hds)]
    | cons d rest =>
      rw [hrest] at hskip
      change (skip false 0 (cs ++ ds)).rest = d :: (rest ++ ds) at hskip
      have hends := h.suffix (hrest ▸ rest_skip_suffix false 0 cs)
      have hlt : (token 0 d rest).2.rest.length < n := by
        have hlt : (token (skip false 0 cs).position d rest).2.rest.length < cs.length :=
          length_rest_next? (r := (token (skip false 0 cs).position d rest).1)
            (next?_of_skip_cons hrest)
        rwa [(sameStep_token _ 0 d rest).2, hn] at hlt
      rw [kinds_of_skip_cons hrest, kinds_of_skip_cons hskip]
      obtain ⟨hkind, hafter⟩ | ⟨hkind, hafter⟩ := token_append (d := d) 0 (hends.stops (rest_skip_ne_newline hrest))
      · rw [hkind, hafter]
        obtain happ | ⟨ks, hks, hprefix⟩ := ih _ hlt (hends.suffix (rest_token_suffix 0 d rest)) rfl
        · exact .inl (congrArg (_ :: ·) happ)
        · refine .inr ⟨_ :: ks, congrArg (_ :: ·) hks, ?_⟩
          exact List.cons_prefix_cons.mpr ⟨rfl, hprefix⟩
      · right
        rw [hkind, hafter]
        exact ⟨[], rfl, List.nil_prefix⟩

end SmallLisp
