import Mathlib.Data.List.Forall2
import SmallLisp.Proofs.Token.Cut
import SmallLisp.Text.Quoted

/-!
# How tokens are written

The characters that a token is lexed from, with anything behind them: brackets and the quote mark, strings in
their escapes, and words, which have to end before what follows (`EndsWord`). A string whose escapes
include a number is not lexed to a string (`kinds_quote_numbered`).
-/

namespace SmallLisp

open Cursor

variable {c : Char} {cs rest : List Char}

/-! ## Single characters -/

/-- A character that is not skipped begins a token. -/
theorem kinds_cons (hblank : Text.isBlank c = false) (hcomma : c ≠ ',') (hsemi : c ≠ ';')
    (cs : List Char) : kinds (c :: cs) =
      (token 0 c cs).1.mapError LexError.fault :: kinds (token 0 c cs).2.rest := by
  apply kinds_of_skip_cons (p := 0)
  simp [skip, hblank, hcomma, hsemi]

theorem kinds_skipped (h : (Text.isBlank c || c == ',') = true) (cs : List Char) :
    kinds (c :: cs) = kinds cs := by
  have hskip : skip false 0 (c :: cs) = skip false 1 cs := by simp [skip, h]
  cases hrest : (skip false 1 cs).rest with
  | nil => rw [kinds_of_skip_nil hrest, kinds_of_skip_nil (hskip ▸ hrest)]
  | cons d ds => rw [kinds_of_skip_cons hrest, kinds_of_skip_cons (hskip ▸ hrest)]

theorem kinds_space (cs : List Char) : kinds (' ' :: cs) = kinds cs := kinds_skipped rfl cs

theorem kinds_comma (cs : List Char) : kinds (',' :: cs) = kinds cs := kinds_skipped rfl cs

theorem kinds_opener (b : Bracket) (cs : List Char) :
    kinds (b.opener :: cs) = .ok (.opening b) :: kinds cs := by
  cases b <;> exact kinds_cons (by decide) (by decide) (by decide) cs

theorem kinds_closer (b : Bracket) (cs : List Char) :
    kinds (b.closer :: cs) = .ok (.closing b) :: kinds cs := by
  cases b <;> exact kinds_cons (by decide) (by decide) (by decide) cs

/-! ## Strings -/

theorem kinds_string (cs : List Char) : kinds ('"' :: cs) =
    (stringBody 0 [] 1 cs).1.mapError LexError.fault :: kinds (stringBody 0 [] 1 cs).2.rest :=
  kinds_cons (by decide) (by decide) (by decide) cs

/-- The character stands in a quoted text by its number. -/
def Text.IsNumbered (c : Char) : Prop := Text.escape c = Text.numberEscape c

/-- A character stands for itself, behind a backslash as a letter, or by its number. -/
theorem escape_cases (c : Char) :
    (∃ d, Text.escape c = ['\\', d] ∧ unescape? d = some c) ∨
      Text.escape c = [c] ∧ c ≠ '\\' ∧ c ≠ '"' ∨ Text.IsNumbered c := by
  unfold Text.IsNumbered Text.escape
  by_cases h₀ : c = '\x00'
  · exact .inl ⟨'0', if_pos h₀, congrArg some h₀.symm⟩
  · by_cases ht : c = '\t'
    · exact .inl ⟨'t', by rw [if_neg h₀, if_pos ht], congrArg some ht.symm⟩
    · by_cases hn : c = '\n'
      · exact .inl ⟨'n', by rw [if_neg h₀, if_neg ht, if_pos hn], congrArg some hn.symm⟩
      · by_cases hr : c = '\r'
        · exact .inl ⟨'r', by rw [if_neg h₀, if_neg ht, if_neg hn, if_pos hr], congrArg some hr.symm⟩
        · rw [if_neg h₀, if_neg ht, if_neg hn, if_neg hr]
          by_cases hq : c = '"'
          · exact .inl ⟨'"', if_pos hq, congrArg some hq.symm⟩
          · by_cases hb : c = '\\'
            · exact .inl ⟨'\\', by rw [if_neg hq, if_pos hb], congrArg some hb.symm⟩
            · rw [if_neg hq, if_neg hb]
              split
              · exact .inr (.inr rfl)
              · exact .inr (.inl ⟨rfl, hb, hq⟩)

/-- The letters of the escapes, each with the character that it stands for. -/
def escapeLetters : List (Char × Char) :=
  [('n', '\n'), ('t', '\t'), ('r', '\r'), ('0', '\x00'), ('"', '"'), ('\\', '\\')]

theorem unescape?_eq_some_iff {letter : Char} :
    unescape? letter = some c ↔ (letter, c) ∈ escapeLetters := by
  constructor
  · intro h
    unfold unescape? at h
    split_ifs at h <;> cases h <;> subst letter <;> decide
  · intro h
    have hall : ∀ e ∈ escapeLetters, unescape? e.1 = some e.2 := by decide
    exact hall _ h

/-- What a character inside a string is written as: itself, unless it is a quote or a backslash, or a
backslash and its letter. -/
inductive WritesChar : Char → List Char → Prop
  /-- The character itself. -/
  | raw {c : Char} (hquote : c ≠ '"') (hback : c ≠ '\\') : WritesChar c [c]
  /-- An escape. -/
  | escape {letter c : Char} (h : (letter, c) ∈ escapeLetters) : WritesChar c ['\\', letter]

/-- A character that is not numbered is written as its escape. -/
theorem writesChar_escape (h : ¬ Text.IsNumbered c) : WritesChar c (Text.escape c) := by
  obtain ⟨d, hescape, hd⟩ | ⟨hescape, hback, hquote⟩ | hnumbered := escape_cases c
  · rw [hescape]
    exact .escape (unescape?_eq_some_iff.mp hd)
  · rw [hescape]
    exact .raw hquote hback
  · exact absurd hnumbered h

/-- A character is read back from what it is written as. -/
theorem WritesChar.stringBody {piece : List Char} (h : WritesChar c piece) (start : Nat)
    (done : List Char) (p : Nat) (cs : List Char) :
    ∃ q, stringBody start done p (piece ++ cs) = stringBody start (c :: done) q cs := by
  cases h with
  | raw hquote hback => exact ⟨_, stringBody_char start done p hback hquote⟩
  | escape h =>
    simp only [List.cons_append, List.nil_append]
    rw [Cursor.stringBody, unescape?_eq_some_iff.mpr h]
    exact ⟨_, rfl⟩

/-- The inside of a string is read back from what its characters are written as. -/
theorem stringBody_written {pieces : List (List Char)} (h : List.Forall₂ WritesChar cs pieces)
    (start : Nat) (done : List Char) (p : Nat) (rest : List Char) :
    ∃ q, stringBody start done p (pieces.flatten ++ '"' :: rest) =
      (.ok (.str (String.ofList (done.reverse ++ cs))), ⟨q, rest⟩) := by
  induction h generalizing done p with
  | nil =>
    refine ⟨p + 1, ?_⟩
    rw [List.flatten_nil, List.nil_append, stringBody_quote, List.append_nil]
  | @cons c piece cs pieces hc hcs ih =>
    obtain ⟨q, hq⟩ := hc.stringBody start done p (pieces.flatten ++ '"' :: rest)
    obtain ⟨r, hr⟩ := ih (c :: done) q
    refine ⟨r, ?_⟩
    rw [List.flatten_cons, List.append_assoc, hq, hr]
    simp

/-- A string is lexed from what its characters are written as. -/
theorem kinds_written {text : String} {pieces : List (List Char)}
    (h : List.Forall₂ WritesChar text.toList pieces) (rest : List Char) :
    kinds ('"' :: (pieces.flatten ++ '"' :: rest)) = .ok (.str text) :: kinds rest := by
  obtain ⟨q, hq⟩ := stringBody_written h 0 [] 1 rest
  have htext : String.ofList ([].reverse ++ text.toList) = text := String.ofList_toList
  rw [kinds_string, hq, htext]
  rfl

/-- The letter `u` begins no escape that is read. -/
theorem stringBody_numbered (h : ∃ c ∈ cs, Text.IsNumbered c) (start : Nat) (done : List Char)
    (p : Nat) (rest : List Char) :
    ∃ position, (stringBody start done p (cs.flatMap Text.escape ++ rest)).1 =
      .error ⟨position, .invalidEscape 'u'⟩ := by
  induction cs generalizing done p with
  | nil =>
    obtain ⟨c, hc, -⟩ := h
    cases hc
  | cons c cs ih =>
    rw [List.flatMap_cons, List.append_assoc]
    by_cases hc : Text.IsNumbered c
    · rw [hc]
      exact ⟨p + 1, rfl⟩
    · have htail : ∃ c ∈ cs, Text.IsNumbered c := by
        obtain ⟨d, hd, hnumbered⟩ := h
        obtain rfl | hd := List.mem_cons.mp hd
        · exact absurd hnumbered hc
        · exact ⟨d, hd, hnumbered⟩
      obtain ⟨q, hq⟩ := (writesChar_escape hc).stringBody start done p (cs.flatMap Text.escape ++ rest)
      rw [hq]
      exact ih htail (c :: done) q

theorem toList_quote (text : String) :
    (Text.quote text).toList = '"' :: (text.toList.flatMap Text.escape ++ ['"']) := by
  simp [Text.quote]

/-- A quoted text without numbered characters is lexed to the string. -/
theorem kinds_quote {text : String} (h : ∀ c ∈ text.toList, ¬ Text.IsNumbered c) (rest : List Char) :
    kinds ((Text.quote text).toList ++ rest) = .ok (.str text) :: kinds rest := by
  have hwritten : List.Forall₂ WritesChar text.toList (text.toList.map Text.escape) :=
    List.forall₂_map_right_iff.mpr (List.forall₂_same.mpr fun c hc => writesChar_escape (h c hc))
  rw [toList_quote, List.cons_append, List.append_assoc, List.singleton_append, List.flatMap_def]
  exact kinds_written hwritten rest

/-- A quoted text with a numbered character is not. -/
theorem kinds_quote_numbered {text : String} (h : ∃ c ∈ text.toList, Text.IsNumbered c)
    (rest : List Char) :
    .error (.invalidEscape 'u') ∈ kinds ((Text.quote text).toList ++ rest) := by
  obtain ⟨position, hposition⟩ := stringBody_numbered h 0 [] 1 ('"' :: rest)
  rw [toList_quote, List.cons_append, List.append_assoc, List.singleton_append, kinds_string, hposition]
  exact List.mem_cons_self ..

/-! ## Words -/

/-- What may stand behind a word: a delimiter, or nothing. -/
def EndsWord (rest : List Char) : Prop := ∀ c, rest.head? = some c → isDelimiter c = true

/-- A row of characters without a delimiter. -/
structure IsWord (cs : List Char) : Prop where
  /-- There is a first character. -/
  ne_nil : cs ≠ []
  /-- No character ends the word. -/
  inside : ∀ c ∈ cs, isDelimiter c = false

/-- A word that is lexed to a keyword behind a colon. -/
structure KeywordWord (cs : List Char) : Prop extends IsWord cs where
  /-- It does not begin with another colon. -/
  head_ne : cs.head? ≠ some ':'

/-- A word that is lexed to a symbol. -/
structure SymbolWord (cs : List Char) : Prop extends KeywordWord cs where
  /-- It does not begin like a number. -/
  not_number : startsNumber cs = false

instance (cs : List Char) : Decidable (KeywordWord cs) :=
  decidable_of_iff (cs ≠ [] ∧ cs.all (!isDelimiter ·) = true ∧ cs.head? ≠ some ':')
    ⟨fun ⟨hne, hinside, hhead⟩ => ⟨⟨hne, by simpa using hinside⟩, hhead⟩,
      fun h => ⟨h.ne_nil, by simpa using h.inside, h.head_ne⟩⟩

instance (cs : List Char) : Decidable (SymbolWord cs) :=
  decidable_of_iff (KeywordWord cs ∧ startsNumber cs = false)
    ⟨fun ⟨hword, hnumber⟩ => ⟨hword, hnumber⟩, fun h => ⟨h.toKeywordWord, h.not_number⟩⟩

/-- A word ends at a delimiter. -/
theorem word_append_of_endsWord (h : ∀ c ∈ cs, isDelimiter c = false) (hrest : EndsWord rest) (p : Nat) :
    word ⟨p, cs ++ rest⟩ = (cs, ⟨p + cs.length, rest⟩) := by
  have hinside : ∀ c ∈ cs, (!isDelimiter c) = true := by
    intro c hc
    rw [h c hc]
    rfl
  have htake : rest.takeWhile (!isDelimiter ·) = [] := by
    cases rest with
    | nil => rfl
    | cons c rest => rw [List.takeWhile_cons_of_neg (by simp [hrest c rfl])]
  have hdrop : rest.dropWhile (!isDelimiter ·) = rest := by
    cases rest with
    | nil => rfl
    | cons c rest => rw [List.dropWhile_cons_of_neg (by simp [hrest c rfl])]
  unfold word
  dsimp only
  rw [List.takeWhile_append_of_pos hinside, htake, List.dropWhile_append_of_pos hinside, hdrop,
    List.append_nil]

/-- What follows a word does not make a number of it. -/
theorem startsNumber_append_of_endsWord (h : IsWord cs) (hrest : EndsWord rest) :
    startsNumber (cs ++ rest) = startsNumber cs := by
  match cs, h.ne_nil with
  | _ :: _ :: _, _ => rfl
  | [c], _ =>
    cases rest with
    | nil => rfl
    | cons d rest =>
      have hdigit : d.isDigit = false := by
        refine Bool.eq_false_iff.mpr fun hd => ?_
        have hdelimiter := hrest d rfl
        rw [isDelimiter_of_isDigit hd] at hdelimiter
        cases hdelimiter
      simp [startsNumber, hdigit]

/-- The first character of a word begins neither a bracket nor a string, and is not skipped. -/
theorem token_of_word (h : isDelimiter c = false) (hcolon : c ≠ ':') (p : Nat) (cs : List Char) :
    token p c cs = if startsNumber (c :: cs) then
      (number p (word ⟨p, c :: cs⟩).1, (word ⟨p, c :: cs⟩).2)
      else (.ok (.symbol (String.ofList (word ⟨p, c :: cs⟩).1)), (word ⟨p, c :: cs⟩).2) := by
  simp only [isDelimiter, Bool.or_eq_false_iff, beq_eq_false_iff_ne] at h
  simp [token, Bracket.ofOpener?, Bracket.ofCloser?, h, hcolon]

/-- A word is lexed to a number or a symbol. -/
theorem kinds_word (h : KeywordWord cs) (hrest : EndsWord rest) :
    kinds (cs ++ rest) =
      (if startsNumber cs then number 0 cs else .ok (.symbol (String.ofList cs))).mapError
        LexError.fault :: kinds rest := by
  have hnumber := startsNumber_append_of_endsWord h.toIsWord hrest
  have hword := word_append_of_endsWord h.inside hrest 0
  cases cs with
  | nil => exact absurd rfl h.ne_nil
  | cons c cs =>
    have hdelimiter := h.inside c (List.mem_cons_self ..)
    have hcolon : c ≠ ':' := fun heq => h.head_ne (congrArg some heq)
    have hskipped := hdelimiter
    simp only [isDelimiter, Bool.or_eq_false_iff, beq_eq_false_iff_ne] at hskipped
    rw [List.cons_append] at hnumber hword ⊢
    rw [kinds_cons (by simp [hskipped]) (by simp [hskipped]) (by simp [hskipped]),
      token_of_word hdelimiter hcolon, hword, hnumber]
    split <;> rfl

theorem kinds_symbol (h : SymbolWord cs) (hrest : EndsWord rest) :
    kinds (cs ++ rest) = .ok (.symbol (String.ofList cs)) :: kinds rest := by
  rw [kinds_word h.toKeywordWord hrest, h.not_number]
  rfl

/-- The colons in front of a keyword. -/
def colons (auto : Bool) : List Char := if auto then [':', ':'] else [':']

theorem kinds_keyword (h : KeywordWord cs) (auto : Bool) (hrest : EndsWord rest) :
    kinds (colons auto ++ (cs ++ rest)) = .ok (.keyword (String.ofList cs) auto) :: kinds rest := by
  have hname : (cs.isEmpty || cs.head? == some ':') = false := by
    simp [h.ne_nil, h.head_ne]
  have hnamed : ∀ p, namedKeyword auto ⟨p, cs ++ rest⟩ =
      (.ok (.keyword (String.ofList cs) auto), ⟨p + cs.length, rest⟩) := by
    intro p
    unfold namedKeyword
    rw [word_append_of_endsWord h.inside hrest p, hname]
    rfl
  cases auto with
  | true =>
    have htoken : token 0 ':' (':' :: (cs ++ rest)) = namedKeyword true ⟨2, cs ++ rest⟩ := rfl
    show kinds (':' :: ':' :: (cs ++ rest)) = _
    rw [kinds_cons (by decide) (by decide) (by decide), htoken, hnamed]
    rfl
  | false =>
    have hhead : (cs ++ rest).head? = cs.head? := by
      cases cs with
      | nil => exact absurd rfl h.ne_nil
      | cons c cs => rfl
    have htoken : token 0 ':' (cs ++ rest) = namedKeyword false ⟨1, cs ++ rest⟩ :=
      keyword_of_head_ne 1 (hhead ▸ h.head_ne)
    show kinds (':' :: (cs ++ rest)) = _
    rw [kinds_cons (by decide) (by decide) (by decide), htoken, hnamed]
    rfl

/-! ## Integers -/

theorem exists_toDigits (n : Nat) : ∃ c cs, Nat.toDigits 10 n = c :: cs ∧ c.isDigit = true := by
  obtain ⟨c, cs, hdigits⟩ := List.exists_cons_of_ne_nil (Nat.toDigits_ne_nil (b := 10) (n := n))
  have hc : c ∈ Nat.toDigits 10 n := hdigits ▸ List.mem_cons_self ..
  exact ⟨c, cs, hdigits, Nat.isDigit_of_mem_toDigits (by decide) (by decide) hc⟩

theorem natural?_toDigits (n : Nat) : Decimal.natural? (Nat.toDigits 10 n) = some n := by
  have hempty : (Nat.toDigits 10 n).isEmpty = false := by simp [Nat.toDigits_ne_nil]
  have hdigits : (Nat.toDigits 10 n).all Char.isDigit = true :=
    List.all_eq_true.mpr fun _ hc => Nat.isDigit_of_mem_toDigits (by decide) (by decide) hc
  unfold Decimal.natural?
  rw [hempty, hdigits]
  exact congrArg some Nat.ofDigitChars_ten_toDigits

theorem toList_toString_int (n : Int) :
    (toString n).toList =
      if 0 ≤ n then Nat.toDigits 10 n.toNat else '-' :: Nat.toDigits 10 (-n).toNat := by
  show n.repr.toList = _
  rw [Int.repr_eq_if]
  split <;> simp [Nat.repr_eq_ofList_toDigits]

theorem takeSign_toDigits (n : Nat) :
    Decimal.takeSign (Nat.toDigits 10 n) = (false, Nat.toDigits 10 n) := by
  obtain ⟨c, cs, hdigits, hc⟩ := exists_toDigits n
  rw [hdigits]
  unfold Decimal.takeSign
  split
  · rename_i heq
    obtain ⟨rfl, -⟩ := List.cons.inj heq
    exact absurd hc (by decide)
  · rename_i heq
    obtain ⟨rfl, -⟩ := List.cons.inj heq
    exact absurd hc (by decide)
  · rfl

/-- An integer is read back. -/
theorem integer?_toString (n : Int64) : Decimal.integer? (toString n.toInt).toList = some n := by
  have hrange : Decimal.int64? n.toInt = some n := by
    rw [Decimal.int64?, if_pos ⟨n.minValue_le_toInt, n.toInt_le⟩, Int64.ofInt_toInt]
  rw [toList_toString_int]
  by_cases hsign : 0 ≤ n.toInt
  · rw [if_pos hsign, Decimal.integer?, takeSign_toDigits]
    dsimp only
    rw [natural?_toDigits, Option.bind_some, if_neg Bool.false_ne_true, Int.toNat_of_nonneg hsign, hrange]
  · rw [if_neg hsign, Decimal.integer?, Decimal.takeSign]
    dsimp only
    rw [natural?_toDigits, Option.bind_some, if_pos rfl, Int.toNat_of_nonneg (by omega), Int.neg_neg, hrange]

theorem startsNumber_toString (n : Int) : startsNumber (toString n).toList = true := by
  rw [toList_toString_int]
  split
  · obtain ⟨c, cs, hdigits, hc⟩ := exists_toDigits n.toNat
    rw [hdigits]
    cases cs <;> simp [startsNumber, hc]
  · obtain ⟨c, cs, hdigits, hc⟩ := exists_toDigits (-n).toNat
    rw [hdigits]
    simp [startsNumber, hc]

theorem keywordWord_toString (n : Int) : KeywordWord (toString n).toList := by
  have hdigits : ∀ m, KeywordWord (Nat.toDigits 10 m) := by
    intro m
    obtain ⟨c, cs, heq, hc⟩ := exists_toDigits m
    refine ⟨⟨Nat.toDigits_ne_nil, fun d hd => ?_⟩, ?_⟩
    · exact isDelimiter_of_isDigit (Nat.isDigit_of_mem_toDigits (by decide) (by decide) hd)
    · rw [heq]
      rintro ⟨⟩
      exact absurd hc (by decide)
  rw [toList_toString_int]
  split
  · exact hdigits _
  · refine ⟨⟨List.cons_ne_nil _ _, fun d hd => ?_⟩, by simp⟩
    obtain rfl | hd := List.mem_cons.mp hd
    · decide
    · exact (hdigits _).inside d hd

theorem kinds_int (n : Int64) (hrest : EndsWord rest) :
    kinds ((toString n.toInt).toList ++ rest) = .ok (.int n) :: kinds rest := by
  rw [kinds_word (keywordWord_toString _) hrest, startsNumber_toString, number, integer?_toString]
  rfl

/-! ## What is lexed is written so -/

/-- The text of a token is a word of its kind. -/
def Token.Spelled : Token → Prop
  | .symbol text => SymbolWord text.toList
  | .keyword text _ => KeywordWord text.toList
  | _ => True

theorem isWord_word {a : Cursor} (h : a.word.1 ≠ []) : IsWord a.word.1 := by
  refine ⟨h, fun c hc => ?_⟩
  have hinside := List.all_eq_true.mp (List.all_takeWhile (p := (!isDelimiter ·)) (l := a.rest)) c hc
  simpa using hinside

theorem endsWord_word (a : Cursor) : EndsWord a.word.2.rest := by
  intro c hc
  have hhead := List.head?_dropWhile_not (!isDelimiter ·) a.rest
  rw [show (a.rest.dropWhile (!isDelimiter ·)).head? = some c from hc] at hhead
  simpa using hhead

theorem spelled_stringBody {t : Token} {start : Nat} {done : List Char} {p : Nat}
    (h : (stringBody start done p cs).1 = .ok t) : t.Spelled := by
  fun_induction stringBody start done p cs with
  | case1 => cases h
  | case2 => cases h
  | case3 done p c cs d hd ih => exact ih h
  | case4 done p c cs hd => cases h
  | case5 done p cs h₁ h₂ =>
    cases h
    trivial
  | case6 done p c cs h₁ h₂ hc ih => exact ih h

theorem spelled_namedKeyword {t : Token} {auto : Bool} {a : Cursor}
    (h : (namedKeyword auto a).1 = .ok t) : t.Spelled := by
  unfold namedKeyword at h
  split at h
  · cases h
  · rename_i hname
    simp only [Bool.or_eq_true, List.isEmpty_iff, beq_iff_eq, not_or] at hname
    cases h
    refine ⟨?_, ?_⟩
    · rw [String.toList_ofList]
      exact isWord_word hname.1
    · rw [String.toList_ofList]
      exact hname.2

theorem spelled_keyword {t : Token} {p : Nat} (h : (keyword ⟨p, cs⟩).1 = .ok t) : t.Spelled := by
  by_cases hcolon : cs.head? = some ':'
  · obtain ⟨cs', rfl⟩ := List.head?_eq_some_iff.mp hcolon
    exact spelled_namedKeyword h
  · rw [keyword_of_head_ne p hcolon] at h
    exact spelled_namedKeyword h

theorem spelled_number {t : Token} {p : Nat} (h : number p cs = .ok t) : t.Spelled := by
  unfold number at h
  split at h
  · cases h
    trivial
  · split at h
    · cases h
      trivial
    · cases h

/-- A word that does not begin like a number is a word of a symbol. -/
theorem symbolWord_word (hdelimiter : isDelimiter c = false) (hcolon : c ≠ ':')
    (hnumber : startsNumber (c :: cs) = false) (p : Nat) : SymbolWord (word ⟨p, c :: cs⟩).1 := by
  have hword : (word ⟨p, c :: cs⟩).1 = c :: cs.takeWhile (!isDelimiter ·) := by
    unfold word
    dsimp only
    rw [List.takeWhile_cons_of_pos (by simp [hdelimiter])]
  have hne : (word ⟨p, c :: cs⟩).1 ≠ [] := by
    rw [hword]
    exact List.cons_ne_nil _ _
  refine ⟨⟨isWord_word hne, ?_⟩, ?_⟩
  · rw [hword]
    exact fun heq => hcolon (Option.some.inj heq)
  · rw [← startsNumber_append_of_endsWord (isWord_word hne) (endsWord_word _), word_append]
    exact hnumber

/-- A token that is lexed is spelled like its kind. -/
theorem spelled_token {t : Token} (hskip : Text.isBlank c = false ∧ c ≠ ',' ∧ c ≠ ';') {p : Nat}
    (h : (token p c cs).1 = .ok t) : t.Spelled := by
  unfold token at h
  split at h
  · cases h
    trivial
  · cases h
    trivial
  · rename_i hopener hcloser
    split at h
    · cases h
      trivial
    · split at h
      · exact spelled_stringBody h
      · split at h
        · exact spelled_keyword h
        · have hdelimiter : isDelimiter c = false := by
            grind [isDelimiter, Bracket.ofOpener?, Bracket.ofCloser?]
          dsimp only at h
          split at h
          · exact spelled_number h
          · rename_i hcolon hnumber
            cases h
            show SymbolWord (String.ofList _).toList
            rw [String.toList_ofList]
            exact symbolWord_word hdelimiter hcolon (Bool.eq_false_iff.mpr hnumber) p

theorem spelled_of_kinds {t : Token} (h : .ok t ∈ kinds cs) : t.Spelled := by
  generalize hks : kinds cs = ks at h
  induction ks generalizing cs with
  | nil => cases h
  | cons k ks ih =>
    obtain ⟨d, rest, hskip, hhead, htail⟩ := token_of_kinds hks
    obtain rfl | h := List.mem_cons.mp h
    · have hcursor : skip false 0 cs = ⟨(skip false 0 cs).position, d :: rest⟩ := by rw [← hskip]
      exact spelled_token (of_skip_eq_cons hcursor) (eq_ok_of_mapError hhead)
    · exact ih htail h

end SmallLisp
