import SmallLisp.Proofs.Token.Boundary

/-!
# Cutting a text between tokens

A token is the same when the text ends right behind it (`Cursor.token_cut`). So wherever one token ends, a
text can be cut into two texts whose lexemes are those of the whole, one after the other
(`exists_cut`). Unlike `kinds_append` this asks for no end of a line, but it goes only one way: two
texts that are put together may become one word.
-/

namespace SmallLisp

namespace Cursor

variable {as bs ds : List Char} {d : Char} {p : Nat} {t : Token}

/-- A word is the same when the text ends behind it. -/
theorem word_cut (h : (word ⟨p, as ++ ds⟩).2.rest = bs ++ ds) :
    (word ⟨p, as⟩).1 = (word ⟨p, as ++ ds⟩).1 ∧ (word ⟨p, as⟩).2.rest = bs := by
  have hwhole := word_append ⟨p, as ++ ds⟩
  rw [h, ← List.append_assoc] at hwhole
  obtain ⟨taken, htaken⟩ : ∃ taken, (word ⟨p, as ++ ds⟩).1 = taken := ⟨_, rfl⟩
  rw [htaken] at hwhole ⊢
  obtain rfl : taken ++ bs = as := List.append_cancel_right hwhole
  have hword : ∀ c ∈ taken, (!isDelimiter c) = true := by
    intro c hc
    rw [← htaken] at hc
    exact List.all_eq_true.mp List.all_takeWhile c hc
  have hstop : ∀ c cs, bs = c :: cs → (!isDelimiter c) = false := by
    rintro c cs rfl
    have hhead := List.head?_dropWhile_not (!isDelimiter ·) (taken ++ c :: cs ++ ds)
    rw [show List.dropWhile (!isDelimiter ·) (taken ++ c :: cs ++ ds) = c :: cs ++ ds from h] at hhead
    simpa using hhead
  have htake : bs.takeWhile (!isDelimiter ·) = [] := by
    cases bs with
    | nil => rfl
    | cons c cs => rw [List.takeWhile_cons_of_neg (by simp [hstop c cs rfl])]
  have hdrop : bs.dropWhile (!isDelimiter ·) = bs := by
    cases bs with
    | nil => rfl
    | cons c cs => rw [List.dropWhile_cons_of_neg (by simp [hstop c cs rfl])]
  constructor
  · show (taken ++ bs).takeWhile (!isDelimiter ·) = taken
    rw [List.takeWhile_append_of_pos hword, htake, List.append_nil]
  · show (taken ++ bs).dropWhile (!isDelimiter ·) = bs
    rw [List.dropWhile_append_of_pos hword, hdrop]

/-- The closing quote of a string is taken off. -/
theorem length_rest_stringBody_lt {start : Nat} {done : List Char}
    (hok : (stringBody start done p as).1 = .ok t) :
    (stringBody start done p as).2.rest.length < as.length := by
  fun_induction stringBody start done p as with
  | case1 => cases hok
  | case2 => cases hok
  | case3 done p c cs d hd ih => exact Nat.lt_succ_of_lt (Nat.lt_succ_of_lt (ih hok))
  | case4 => cases hok
  | case5 => exact Nat.lt_succ_self _
  | case6 done p c cs h₁ h₂ hc ih => exact Nat.lt_succ_of_lt (ih hok)

/-- A string is the same when the text ends behind it. -/
theorem stringBody_cut {start : Nat} {done : List Char}
    (hok : (stringBody start done p (as ++ ds)).1 = .ok t)
    (h : (stringBody start done p (as ++ ds)).2.rest = bs ++ ds) :
    (stringBody start done p as).1 = .ok t ∧ (stringBody start done p as).2.rest = bs := by
  -- The closing quote is one of the characters before the cut.
  have hmore : ∀ {done : List Char} {p : Nat} {es : List Char}, es.length ≤ ds.length →
      (stringBody start done p es).1 = .ok t → (stringBody start done p es).2.rest ≠ bs ++ ds := by
    intro done p es hes hok hrest
    have hlt := length_rest_stringBody_lt hok
    rw [hrest, List.length_append] at hlt
    omega
  fun_induction stringBody start done p as with
  | case1 => exact absurd h (hmore (Nat.le_refl _) hok)
  | case2 done p =>
    cases ds with
    | nil =>
      rw [List.append_nil] at hok
      cases hok
    | cons d ds =>
      simp only [List.cons_append, List.nil_append, stringBody] at hok h
      split at hok
      · rename_i hd
        rw [hd] at h
        exact absurd h (hmore (Nat.le_succ _) hok)
      · cases hok
  | case3 done p c cs d hd ih =>
    simp only [List.cons_append] at hok h
    rw [stringBody, hd] at hok h
    exact ih hok h
  | case4 done p c cs hd =>
    simp only [List.cons_append] at hok
    rw [stringBody, hd] at hok
    cases hok
  | case5 done p cs h₁ h₂ =>
    rw [List.cons_append, stringBody_quote] at hok h
    exact ⟨hok, List.append_cancel_right h⟩
  | case6 done p c cs h₁ h₂ hc ih =>
    rw [List.cons_append, stringBody_char _ _ _ (ne_backslash h₁ h₂) hc] at hok h
    exact ih hok h

/-- A keyword is the same when the text ends behind it. -/
theorem namedKeyword_cut {auto : Bool} (hok : (namedKeyword auto ⟨p, as ++ ds⟩).1 = .ok t)
    (h : (namedKeyword auto ⟨p, as ++ ds⟩).2.rest = bs ++ ds) :
    (namedKeyword auto ⟨p, as⟩).1 = .ok t ∧ (namedKeyword auto ⟨p, as⟩).2.rest = bs := by
  have hrest : (namedKeyword auto ⟨p, as ++ ds⟩).2.rest = (word ⟨p, as ++ ds⟩).2.rest := by
    unfold namedKeyword
    split <;> rfl
  obtain ⟨htaken, hbs⟩ := word_cut (hrest.symm.trans h)
  unfold namedKeyword at hok ⊢
  rw [htaken]
  split at hok
  · cases hok
  · rename_i hname
    rw [if_neg hname]
    exact ⟨hok, hbs⟩

/-- A keyword has a name, so it is longer than what follows it. -/
theorem length_rest_keyword_lt (hok : (keyword ⟨p, as⟩).1 = .ok t) :
    (keyword ⟨p, as⟩).2.rest.length < as.length := by
  have named : ∀ {auto q} {cs : List Char}, (namedKeyword auto ⟨q, cs⟩).1 = .ok t →
      (namedKeyword auto ⟨q, cs⟩).2.rest.length < cs.length := by
    intro auto q cs hok
    have hlength := congrArg List.length (word_append ⟨q, cs⟩)
    unfold namedKeyword at hok ⊢
    split at hok
    · cases hok
    · rename_i hname
      rw [if_neg hname]
      have hpos : 0 < (word ⟨q, cs⟩).1.length := by
        rw [List.length_pos_iff]
        intro hnil
        simp [hnil] at hname
      rw [List.length_append] at hlength
      dsimp only at hlength ⊢
      omega
  by_cases hcolon : as.head? = some ':'
  · obtain ⟨cs, rfl⟩ := List.head?_eq_some_iff.mp hcolon
    have hnamed : (namedKeyword true ⟨p + 1, cs⟩).1 = .ok t := hok
    exact Nat.lt_succ_of_lt (named hnamed)
  · rw [keyword_of_head_ne p hcolon] at hok ⊢
    exact named hok

theorem keyword_cut (hok : (keyword ⟨p, as ++ ds⟩).1 = .ok t)
    (h : (keyword ⟨p, as ++ ds⟩).2.rest = bs ++ ds) :
    (keyword ⟨p, as⟩).1 = .ok t ∧ (keyword ⟨p, as⟩).2.rest = bs := by
  cases as with
  | nil =>
    have hlt := length_rest_keyword_lt hok
    rw [h, List.nil_append, List.length_append] at hlt
    omega
  | cons c as =>
    by_cases hcolon : c = ':'
    · subst hcolon
      have hnamed : (namedKeyword true ⟨p + 1, as ++ ds⟩).1 = .ok t := hok
      exact namedKeyword_cut hnamed h
    · have hhead : ∀ es : List Char, (c :: es).head? ≠ some ':' := fun es => by simpa using hcolon
      rw [List.cons_append, keyword_of_head_ne p (hhead _), ← List.cons_append] at hok h
      rw [keyword_of_head_ne p (hhead _)]
      exact namedKeyword_cut hok h

/-- No digit ends a word. -/
theorem isDelimiter_of_isDigit {c : Char} (h : c.isDigit = true) : isDelimiter c = false := by
  simp only [Char.isDigit, Bool.and_eq_true, decide_eq_true_eq] at h
  have hn : 48 ≤ c.toNat ∧ c.toNat ≤ 57 := h
  have hne : ∀ d : Char, d.toNat < 48 ∨ 57 < d.toNat → (c == d) = false := by
    intro d hd
    refine beq_eq_false_iff_ne.mpr ?_
    rintro rfl
    omega
  have hblank : Text.isBlank c = false := by
    simp only [Text.isBlank, Bool.or_eq_false_iff, Bool.and_eq_false_iff, decide_eq_false_iff_not,
      beq_eq_false_iff_ne]
    omega
  simp [isDelimiter, hblank, hne]

/-- Whether a word is meant as a number is decided by its own characters. -/
theorem startsNumber_cut (h : (word ⟨p, d :: (as ++ ds)⟩).2.rest = bs ++ ds) :
    startsNumber (d :: as) = startsNumber (d :: (as ++ ds)) := by
  cases as with
  | cons c as => rfl
  | nil =>
    cases ds with
    | nil => rfl
    | cons c ds =>
      cases hc : c.isDigit with
      | false => simp [startsNumber, hc]
      | true =>
        -- The digit would belong to the word, which ends before it.
        have hdelimiter := isDelimiter_of_isDigit hc
        have hlength := congrArg List.length h
        simp only [word, List.nil_append, List.dropWhile_cons, hdelimiter] at hlength
        cases hd : isDelimiter d with
        | false =>
          have hle := (List.dropWhile_suffix (l := ds) (!isDelimiter ·)).length_le
          simp only [hd, Bool.not_false, if_true, List.length_append, List.length_cons] at hlength
          omega
        | true =>
          have hsign : (d == '-' || d == '+') = false := by
            refine Bool.or_eq_false_iff.mpr ⟨?_, ?_⟩ <;>
              exact beq_eq_false_iff_ne.mpr fun heq => absurd hd (by subst heq; decide)
          simp [startsNumber, hsign]

/-- The first character of a token tells how it is read. -/
theorem token_cases (d : Char) :
    (∃ t, ∀ p cs, token p d cs = (.ok t, ⟨p + 1, cs⟩)) ∨
      (∀ p cs, token p d cs = stringBody p [] (p + 1) cs) ∨
      (∀ p cs, token p d cs = keyword ⟨p + 1, cs⟩) ∨
      ∀ p cs, token p d cs =
        if startsNumber (d :: cs) then
          (number p (word ⟨p, d :: cs⟩).1, (word ⟨p, d :: cs⟩).2)
        else (.ok (.symbol (String.ofList (word ⟨p, d :: cs⟩).1)), (word ⟨p, d :: cs⟩).2) := by
  unfold token
  split
  · exact .inl ⟨_, fun _ _ => rfl⟩
  · exact .inl ⟨_, fun _ _ => rfl⟩
  · split
    · exact .inl ⟨_, fun _ _ => rfl⟩
    · split
      · exact .inr (.inl fun _ _ => rfl)
      · split
        · exact .inr (.inr (.inl fun _ _ => rfl))
        · exact .inr (.inr (.inr fun _ _ => rfl))

/-- A token is the same when the text ends behind it. -/
theorem token_cut (hok : (token p d (as ++ ds)).1 = .ok t)
    (h : (token p d (as ++ ds)).2.rest = bs ++ ds) :
    (token p d as).1 = .ok t ∧ (token p d as).2.rest = bs := by
  obtain ⟨t', hone⟩ | hstring | hkeyword | hword := token_cases d
  · rw [hone] at hok h ⊢
    exact ⟨hok, List.append_cancel_right h⟩
  · rw [hstring] at hok h ⊢
    exact stringBody_cut hok h
  · rw [hkeyword] at hok h ⊢
    exact keyword_cut hok h
  · rw [hword] at hok h ⊢
    have hrest : (word ⟨p, d :: (as ++ ds)⟩).2.rest = bs ++ ds := by
      rw [← h]
      split <;> rfl
    obtain ⟨htaken, hbs⟩ : (word ⟨p, d :: as⟩).1 = (word ⟨p, d :: (as ++ ds)⟩).1 ∧
        (word ⟨p, d :: as⟩).2.rest = bs := word_cut hrest
    rw [startsNumber_cut hrest, htaken]
    split
    · rename_i hnumber
      rw [if_pos hnumber] at hok
      exact ⟨hok, hbs⟩
    · rename_i hnumber
      rw [if_neg hnumber] at hok
      exact ⟨hok, hbs⟩

/-- A character is skipped, or skipping ends at it. -/
theorem skip_cases (inComment : Bool) (c : Char) :
    (∃ inComment', ∀ p cs, skip inComment p (c :: cs) = skip inComment' (p + 1) cs) ∨
      ∀ p cs, skip inComment p (c :: cs) = ⟨p, c :: cs⟩ := by
  simp only [skip]
  split
  · exact .inl ⟨_, fun _ _ => rfl⟩
  · split
    · exact .inl ⟨_, fun _ _ => rfl⟩
    · split
      · exact .inl ⟨_, fun _ _ => rfl⟩
      · exact .inr fun _ _ => rfl

/-- Skipping ends at the same character whatever follows that. -/
theorem skip_cut {inComment : Bool} (h : (skip inComment p (as ++ d :: ds)).rest = d :: ds)
    (es : List Char) : (skip inComment p (as ++ d :: es)).rest = d :: es := by
  induction as generalizing inComment p with
  | nil =>
    obtain ⟨inComment', hskip⟩ | hstop := skip_cases inComment d
    · have hle := length_rest_skip inComment' (p + 1) ds
      rw [List.nil_append, hskip] at h
      rw [h, List.length_cons] at hle
      omega
    · rw [List.nil_append, hstop]
  | cons c as ih =>
    obtain ⟨inComment', hskip⟩ | hstop := skip_cases inComment c
    · rw [List.cons_append, hskip] at h ⊢
      exact ih h
    · rw [List.cons_append, hstop] at h
      have hlength := congrArg List.length h
      simp only [List.length_cons, List.length_append] at hlength
      omega

/-- Where skipping ends, a token takes at least its first character. -/
theorem length_rest_token_of_skip {cs : List Char} (h : (skip false p cs).rest = d :: ds)
    (q : Nat) : (token q d ds).2.rest.length < (d :: ds).length := by
  have hskip : skip false p cs = ⟨(skip false p cs).position, d :: ds⟩ := by rw [← h]
  exact length_rest_token (of_skip_eq_cons hskip)

end Cursor

open Cursor

variable {cs : List Char} {ts : List Token} {ks : List (Except LexFault Token)}

/-- A token is no fault. -/
theorem eq_ok_of_mapError {r : Except LexError Token} {t : Token}
    (h : r.mapError LexError.fault = .ok t) : r = .ok t := by
  cases r with
  | error e => cases h
  | ok t' => exact congrArg Except.ok (Except.ok.inj h)

theorem kinds_nil : kinds [] = [] := rfl

/-- The first lexeme comes from the first character that is not skipped. -/
theorem token_of_kinds {k : Except LexFault Token} (h : kinds cs = k :: ks) :
    ∃ d rest, (skip false 0 cs).rest = d :: rest ∧
      (token 0 d rest).1.mapError LexError.fault = k ∧ kinds (token 0 d rest).2.rest = ks := by
  cases hrest : (skip false 0 cs).rest with
  | nil =>
    rw [kinds_of_skip_nil hrest] at h
    cases h
  | cons d rest =>
    rw [kinds_of_skip_cons hrest] at h
    obtain ⟨hkind, hbehind⟩ := List.cons.inj h
    exact ⟨d, rest, rfl, hkind, hbehind⟩

/-- A text that begins with these tokens can be cut behind them. -/
theorem exists_cut (h : kinds cs = ts.map .ok ++ ks) :
    ∃ as bs, cs = as ++ bs ∧ kinds as = ts.map .ok ∧ kinds bs = ks := by
  induction ts generalizing cs with
  | nil => exact ⟨[], cs, rfl, rfl, h⟩
  | cons t ts ih =>
    obtain ⟨d, rest, hskip, hhead, htail⟩ := token_of_kinds h
    obtain ⟨as, bs, hcut, has, hbs⟩ := ih htail
    have hok := eq_ok_of_mapError hhead
    -- The token has taken characters off the front, at least its first one.
    obtain ⟨skipped, hskipped⟩ := rest_skip_suffix false 0 cs
    obtain ⟨taken, htaken⟩ := rest_token_suffix 0 d rest
    rw [hskip] at hskipped
    cases taken with
    | nil =>
      have hlt := length_rest_token_of_skip hskip 0
      rw [← htaken] at hlt
      exact absurd hlt (Nat.lt_irrefl _)
    | cons d' taken =>
      rw [hcut, List.cons_append] at htaken
      obtain ⟨rfl, hrest⟩ := List.cons.inj htaken
      rw [← List.append_assoc] at hrest
      subst hrest
      have hskip' : (skip false 0 (skipped ++ d' :: (taken ++ as))).rest = d' :: (taken ++ as) := by
        rw [← hskipped] at hskip
        exact skip_cut hskip _
      obtain ⟨hok', hafter⟩ := token_cut hok hcut
      refine ⟨skipped ++ d' :: (taken ++ as), bs, ?_, ?_, hbs⟩
      · rw [← hskipped]
        simp
      · rw [kinds_of_skip_cons hskip', hok', hafter, has]
        rfl

end SmallLisp
