import SmallLisp.Proofs.Reader.Recovery
import SmallLisp.Proofs.Token.Spelling

/-!
# Tokens written out

What a token is written as (`Token.Writes`), what may stand between two of them (`Separator`), and the texts
that a row of tokens is written as (`WritesRow`). Such a text is lexed to the row of tokens
(`tokenize_of_writesRow`). Two tokens may stand side by side unless both are words, because everything else
begins with a character that ends a word (`WritesRow.endsWord`).
-/

namespace SmallLisp

open Cursor

variable {t : Token} {ts : List Token} {cs gap rest : List Char}

/-! ## Separators -/

/-- Blanks, commas and comments, each comment with the newline that ends it. -/
inductive Separator : List Char → Prop
  /-- Nothing. -/
  | nil : Separator []
  /-- A blank or a comma in front. -/
  | skipped {c : Char} {gap : List Char} (h : (Text.isBlank c || c == ',') = true)
      (behind : Separator gap) : Separator (c :: gap)
  /-- A comment in front. -/
  | comment {text gap : List Char} (h : '\n' ∉ text) (behind : Separator gap) :
      Separator (';' :: (text ++ '\n' :: gap))

/-- A comment is skipped to the end of its line. -/
theorem skip_comment {text : List Char} (h : '\n' ∉ text) (p : Nat) (cs : List Char) :
    ∃ q, skip true p (text ++ '\n' :: cs) = skip false q cs := by
  induction text generalizing p with
  | nil => exact ⟨p + 1, skip_newline true p cs⟩
  | cons c text ih =>
    obtain ⟨q, hq⟩ := ih (fun hmem => h (List.mem_cons_of_mem c hmem)) (p + 1)
    refine ⟨q, ?_⟩
    have hinside : (c != '\n') = true := bne_iff_ne.mpr fun heq => h (heq ▸ List.mem_cons_self ..)
    rw [List.cons_append, skip, if_pos rfl, hinside, hq]

theorem kinds_comment {text : List Char} (h : '\n' ∉ text) (cs : List Char) :
    kinds (';' :: (text ++ '\n' :: cs)) = kinds cs := by
  obtain ⟨q, hq⟩ := skip_comment h 1 cs
  have hskip : skip false 0 (';' :: (text ++ '\n' :: cs)) = skip false q cs := hq
  cases hrest : (skip false q cs).rest with
  | nil => rw [kinds_of_skip_nil hrest, kinds_of_skip_nil (hskip ▸ hrest)]
  | cons d ds => rw [kinds_of_skip_cons hrest, kinds_of_skip_cons (hskip ▸ hrest)]

/-- A separator adds no token to what stands behind it. -/
theorem Separator.kinds_append (h : Separator gap) (rest : List Char) : kinds (gap ++ rest) = kinds rest := by
  induction h with
  | nil => rfl
  | skipped h _ ih => rw [List.cons_append, kinds_skipped h, ih]
  | comment h _ ih => rw [List.cons_append, List.append_assoc, List.cons_append, kinds_comment h, ih]

/-- A separator begins with a character that ends a word. -/
theorem Separator.endsWord (h : Separator gap) (hne : gap ≠ []) (rest : List Char) :
    EndsWord (gap ++ rest) := by
  cases h with
  | nil => exact absurd rfl hne
  | @skipped c _ h _ =>
    intro d hd
    obtain rfl : c = d := Option.some.inj hd
    unfold isDelimiter
    simp only [Bool.or_eq_true, beq_iff_eq] at h ⊢
    tauto
  | comment =>
    rintro d ⟨⟩
    rfl

/-! ## Tokens -/

/-- Some text has the token among its lexemes. -/
def Token.Produced (t : Token) : Prop := ∃ text, ∃ l ∈ lex text, l.result = .ok t

theorem Token.Produced.spelled (h : t.Produced) : t.Spelled := by
  obtain ⟨text, l, hl, hresult⟩ := h
  have hkind : l.kind ∈ kinds text.toList := List.mem_map_of_mem hl
  rw [Lexeme.kind_of_result hresult] at hkind
  exact spelled_of_kinds hkind

theorem Token.produced_of_kinds (h : kinds cs = [.ok t]) : t.Produced := by
  have htokens : tokenize (String.ofList cs) = .ok [t] := by
    rw [tokenize_eq_ok_iff_kinds, String.toList_ofList, h]
    rfl
  obtain ⟨l, hl, hresult⟩ : ∃ l ∈ lex (String.ofList cs), l.result = .ok t := by
    have hmem : .ok t ∈ (lex (String.ofList cs)).map Lexeme.result := by
      rw [tokenize_eq_ok_iff.mp htokens]
      exact List.mem_singleton.mpr rfl
    exact List.mem_map.mp hmem
  exact ⟨_, l, hl, hresult⟩

/-- The symbols that the lexer gives are the words that begin neither with a colon nor like a number. -/
theorem Token.produced_symbol_iff {text : String} :
    (Token.symbol text).Produced ↔ SymbolWord text.toList := by
  refine ⟨Produced.spelled, fun h => ?_⟩
  have hends : EndsWord [] := by rintro c ⟨⟩
  have hkinds := kinds_symbol h hends
  rw [List.append_nil, String.ofList_toList] at hkinds
  exact produced_of_kinds hkinds

/-- The keywords that the lexer gives have the words that begin with no colon. -/
theorem Token.produced_keyword_iff {text : String} {auto : Bool} :
    (Token.keyword text auto).Produced ↔ KeywordWord text.toList := by
  refine ⟨Produced.spelled, fun h => ?_⟩
  have hends : EndsWord [] := by rintro c ⟨⟩
  have hkinds := kinds_keyword h auto hends
  rw [List.append_nil, String.ofList_toList] at hkinds
  exact produced_of_kinds hkinds

/-- What a token is written as. Floats are left out. -/
inductive Token.Writes : Token → List Char → Prop
  /-- An opening bracket. -/
  | opening (b : Bracket) : Writes (.opening b) [b.opener]
  /-- A closing bracket. -/
  | closing (b : Bracket) : Writes (.closing b) [b.closer]
  /-- The quote mark. -/
  | quote : Writes .quote ['\x27']
  /-- An integer, in decimal. -/
  | int (n : Int64) : Writes (.int n) (toString n.toInt).toList
  /-- A string, between quotes. -/
  | str {text : String} {pieces : List (List Char)} (h : List.Forall₂ WritesChar text.toList pieces) :
      Writes (.str text) ('"' :: (pieces.flatten ++ ['"']))
  /-- A symbol that the lexer can give. -/
  | symbol {text : String} (h : (Token.symbol text).Produced) : Writes (.symbol text) text.toList
  /-- A keyword, behind one colon or two, whose text the lexer can give behind one or two. -/
  | keyword {text : String} (auto : Bool) {auto' : Bool} (h : (Token.keyword text auto').Produced) :
      Writes (.keyword text auto) (colons auto ++ text.toList)

/-- Whether a token is written as a word, which ends only at a delimiter. -/
def Token.isWord : Token → Bool
  | .int _ | .float _ | .symbol _ | .keyword _ _ => true
  | _ => false

/-- A token is lexed from what it is written as, if a word ends there. -/
theorem Token.Writes.kinds_append (h : t.Writes cs) (hrest : t.isWord = true → EndsWord rest) :
    kinds (cs ++ rest) = .ok t :: kinds rest := by
  cases h with
  | opening b => exact kinds_opener b rest
  | closing b => exact kinds_closer b rest
  | quote => exact kinds_cons (by decide) (by decide) (by decide) rest
  | int n => exact kinds_int n (hrest rfl)
  | str h =>
    rw [List.cons_append, List.append_assoc, List.singleton_append]
    exact kinds_written h rest
  | symbol h =>
    have hkinds := kinds_symbol (produced_symbol_iff.mp h) (hrest rfl)
    rw [String.ofList_toList] at hkinds
    exact hkinds
  | keyword auto h =>
    have hkinds := kinds_keyword (produced_keyword_iff.mp h) auto (hrest rfl)
    rw [String.ofList_toList] at hkinds
    rw [List.append_assoc]
    exact hkinds

/-- What is no word begins with a character that ends a word. -/
theorem Token.Writes.endsWord (h : t.Writes cs) (hword : t.isWord = false) (rest : List Char) :
    EndsWord (cs ++ rest) := by
  cases h with
  | opening b =>
    rintro d ⟨⟩
    cases b <;> rfl
  | closing b =>
    rintro d ⟨⟩
    cases b <;> rfl
  | quote | str =>
    rintro d ⟨⟩
    rfl
  | int | symbol | keyword => cases hword

/-! ## Rows of tokens -/

/-- What tokens are written as in a row, with a separator behind each. -/
inductive WritesRow : List Token → List Char → Prop
  /-- No token is left. -/
  | nil : WritesRow [] []
  /-- A token in front. The separator behind it may be empty unless a word stands on both sides. -/
  | cons {t : Token} {ts : List Token} {cs gap rest : List Char} (token : t.Writes cs)
      (separator : Separator gap) (apart : t.isWord = true → ts.head?.any Token.isWord = true → gap ≠ [])
      (behind : WritesRow ts rest) : WritesRow (t :: ts) (cs ++ gap ++ rest)

/-- A row that begins with no word begins with a character that ends a word. -/
theorem WritesRow.endsWord (h : WritesRow ts cs) (hword : ts.head?.any Token.isWord = false) :
    EndsWord cs := by
  cases h with
  | nil => rintro c ⟨⟩
  | cons token _ _ _ =>
    rw [List.append_assoc]
    exact token.endsWord hword _

theorem WritesRow.kinds (h : WritesRow ts cs) : kinds cs = ts.map .ok := by
  induction h with
  | nil => exact kinds_nil
  | @cons t ts cs gap rest token separator apart behind ih =>
    have hends : t.isWord = true → EndsWord (gap ++ rest) := by
      -- Without a separator the word ends at the next token, which is no word then.
      intro hword
      by_cases hgap : gap = []
      · rw [hgap]
        exact behind.endsWord (Bool.eq_false_iff.mpr fun hnext => apart hword hnext hgap)
      · exact separator.endsWord hgap rest
    rw [List.append_assoc, token.kinds_append hends, separator.kinds_append, ih, List.map_cons]

/-- A text that tokens are written as in a row, with a separator in front, is lexed to these tokens. -/
theorem tokenize_of_writesRow {text : String} (hgap : Separator gap) (hrow : WritesRow ts cs)
    (htext : text.toList = gap ++ cs) : tokenize text = .ok ts := by
  rw [tokenize_eq_ok_iff_kinds, htext, hgap.kinds_append, hrow.kinds]

/-- A comment in front, a quote mark right behind a symbol, a string that holds a quote and a semicolon. -/
theorem tokenize_written_row : tokenize ";c\n-5 a'::k,\"\\\";\"(" =
    .ok [.int (-5), .symbol "a", .quote, .keyword "k" true, .str "\";", .opening .round] := by
  have hsymbol : (Token.symbol "a").Produced := Token.produced_symbol_iff.mpr (by decide)
  have hkeyword : (Token.keyword "k" true).Produced := Token.produced_keyword_iff.mpr (by decide)
  have hstring : Token.Writes (.str "\";") ('"' :: ([['\\', '"'], [';']].flatten ++ ['"'])) :=
    .str (.cons (.escape (by decide)) (.cons (.raw (by decide) (by decide)) .nil))
  have hgap : Separator (';' :: (['c'] ++ ['\n'])) := .comment (by decide) .nil
  refine tokenize_of_writesRow hgap
    (.cons (.int (-5)) (.skipped (c := ' ') rfl .nil) (fun _ _ => by simp)
    (.cons (.symbol hsymbol) .nil (by simp [Token.isWord])
    (.cons .quote .nil (by simp [Token.isWord])
    (.cons (.keyword true hkeyword) (.skipped (c := ',') rfl .nil) (fun _ _ => by simp)
    (.cons hstring .nil (by simp [Token.isWord])
    (.cons (.opening .round) .nil (by simp [Token.isWord]) .nil)))))) ?_
  decide

end SmallLisp
