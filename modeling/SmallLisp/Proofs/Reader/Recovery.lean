import Mathlib
import SmallLisp.Proofs.Reader.Nesting
import SmallLisp.Proofs.Reader.Results
import SmallLisp.Proofs.Token.Cut

/-!
# Reading form by form

A text without lexical faults whose brackets nest properly is read form by form: it falls apart into texts of
one form each, and what the reader gives for it is what it gives for these texts, one by one, whether a form
is well made or not (`readsFormByForm_of_nests`).

This asks that each quote mark has a form behind it. A closing bracket right behind a quote mark is used
up when the form is refused, while the reader still takes its group for open, so that the form after the group is
lost with it (`not_nestedTextsReadFormByForm`).
-/

namespace SmallLisp

/-- A lexeme of a token, at no particular place. -/
def Token.lexeme (t : Token) : Lexeme := ⟨.ok t, 0⟩

/-- Lexemes of tokens, at no particular places. -/
def lexemesOf (ts : List Token) : List Lexeme := ts.map Token.lexeme

@[simp] theorem lexemesOf_nil : lexemesOf [] = [] := rfl

@[simp] theorem lexemesOf_cons (t : Token) (ts : List Token) :
    lexemesOf (t :: ts) = t.lexeme :: lexemesOf ts := rfl

@[simp] theorem lexemesOf_append (ts us : List Token) :
    lexemesOf (ts ++ us) = lexemesOf ts ++ lexemesOf us := List.map_append

@[simp] theorem result_lexemesOf (ts : List Token) : (lexemesOf ts).map Lexeme.result = ts.map .ok := by
  unfold lexemesOf
  rw [List.map_map]
  rfl

section

variable {ts : List Token}

theorem mapM_result_cons {l : Lexeme} (h : l.result = .ok t) (ls : List Lexeme) :
    (l :: ls).mapM Lexeme.result = (ls.mapM Lexeme.result).map (t :: ·) := by
  rw [List.mapM_cons, h]
  cases ls.mapM Lexeme.result <;> rfl

theorem mapM_result_eq_ok_iff {ls : List Lexeme} :
    ls.mapM Lexeme.result = .ok ts ↔ ls.map Lexeme.result = ts.map .ok := by
  induction ls generalizing ts with
  | nil =>
    cases ts with
    | nil => exact ⟨fun _ => rfl, fun _ => rfl⟩
    | cons t ts => exact ⟨nofun, nofun⟩
  | cons l ls ih =>
    rw [List.map_cons]
    cases hl : l.result with
    | error e =>
      rw [List.mapM_cons, hl]
      cases ts with
      | nil => exact ⟨nofun, nofun⟩
      | cons t ts => exact ⟨nofun, fun h => nomatch (List.cons.inj h).1⟩
    | ok t =>
      rw [mapM_result_cons hl]
      cases ts with
      | nil =>
        refine ⟨fun h => ?_, nofun⟩
        generalize ls.mapM Lexeme.result = x at h
        cases x <;> cases h
      | cons t' ts =>
        rw [List.map_cons, List.cons.injEq, Except.ok.injEq, ← ih]
        cases ls.mapM Lexeme.result with
        | error e => exact ⟨nofun, fun h => nomatch h.2⟩
        | ok us =>
          constructor
          · intro h
            cases h
            exact ⟨rfl, rfl⟩
          · rintro ⟨rfl, h⟩
            cases h
            rfl

/-- A text has these tokens if it has no other lexemes. -/
theorem tokenize_eq_ok_iff {text : String} :
    tokenize text = .ok ts ↔ (lex text).map Lexeme.result = ts.map .ok := mapM_result_eq_ok_iff

/-- The tokens of a text are what it is lexed to. -/
theorem tokenize_eq_ok_iff_kinds {text : String} :
    tokenize text = .ok ts ↔ kinds text.toList = ts.map .ok := by
  rw [tokenize_eq_ok_iff]
  constructor
  · intro h
    have hkinds := congrArg (List.map (Except.mapError LexError.fault)) h
    rw [List.map_map, List.map_map] at hkinds
    exact hkinds
  · intro h
    have hok : ∀ k ∈ (lex text).map Lexeme.kind, ∃ t, k = .ok t := by
      intro k hk
      rw [show (lex text).map Lexeme.kind = ts.map .ok from h] at hk
      obtain ⟨t, -, rfl⟩ := List.mem_map.mp hk
      exact ⟨t, rfl⟩
    have hkinds : (lex text).map Lexeme.kind = (lexemesOf ts).map Lexeme.kind := by
      rw [show (lex text).map Lexeme.kind = ts.map .ok from h, lexemesOf, List.map_map]
      rfl
    rw [Lexeme.results_eq hkinds hok, result_lexemesOf]

end

namespace Reader

variable {here : Site} {w : World} {frames : List Frame} {t : Token} {ts : List Token}
  {phrases : List (List Token)}

/-- Goes on from what a token has led to. -/
def resume (here : Site) (rest : List Lexeme) : ReadStep × World → Reading
  | (.form v, w) => ⟨some (.ok v), rest, w⟩
  | (.pending frames, w) => readFrom w here frames rest
  | (.refused e depth, w) => ⟨some (.error e), recover depth rest, w⟩

theorem readFrom_token (w : World) (here : Site) (frames : List Frame) (t : Token)
    (rest : List Lexeme) :
    readFrom w here frames (t.lexeme :: rest) = resume here rest (step w here frames t) := by
  rw [readFrom]
  simp only [Token.lexeme]
  generalize step w here frames t = r
  obtain ⟨v | frames' | ⟨e, d⟩, w'⟩ := r <;> rfl

/-! ## Passing over forms -/

theorem recover_flatten
    (h : ∀ p ∈ phrases, ∀ d rest, recover (d + 1) (lexemesOf p ++ rest) = recover (d + 1) rest)
    (d : Nat) (rest : List Lexeme) :
    recover (d + 1) (lexemesOf phrases.flatten ++ rest) = recover (d + 1) rest := by
  induction phrases with
  | nil => rfl
  | cons p phrases ih =>
    rw [List.flatten_cons, lexemesOf_append, List.append_assoc, h p (List.mem_cons_self ..)]
    exact ih fun q hq => h q (List.mem_cons_of_mem _ hq)

/-- Recovery passes over whole forms and then still waits for the same brackets. -/
theorem recover_phrase (h : Phrase ts) (d : Nat) (rest : List Lexeme) :
    recover (d + 1) (lexemesOf ts ++ rest) = recover (d + 1) rest := by
  induction h generalizing d rest with
  | @atom t h =>
    cases t with
    | opening b => cases h
    | closing b => cases h
    | _ => rfl
  | quoted _ ih => exact ih d rest
  | group b _ ih =>
    rw [lexemesOf_cons, lexemesOf_append, List.cons_append, List.append_assoc]
    show recover (d + 2) _ = _
    rw [recover_flatten ih]
    rfl

/-! ## Reading a form -/

/-- What a whole form leads to inside these frames: it is handed to them, or it is refused, and then just the
brackets of these frames are open. -/
def Settles (frames : List Frame) (x : ReadStep × World) : Prop :=
  (∃ v w, x = supply w v frames) ∨ ∃ e w, x = (.refused e (depth frames), w)

/-- What settles inside a quote mark settles around it. -/
theorem Settles.unquote {x : ReadStep × World} (h : Settles (.quote :: frames) x) :
    Settles frames x := by
  obtain ⟨v, w, rfl⟩ | ⟨e, w, rfl⟩ := h
  · exact .inl ⟨_, _, rfl⟩
  · exact .inr ⟨e, w, rfl⟩

theorem settles_atom (w : World) (here : Site) (frames : List Frame) (h : t.isAtom = true) :
    Settles frames (step w here frames t) := by
  cases t with
  | opening b => cases h
  | closing b => cases h
  | quote => cases h
  | keyword text auto =>
    unfold step
    dsimp only
    obtain ⟨e | k, w'⟩ := w.readKeyword here (Symbol.parse text) auto
    · exact .inr ⟨e, w', rfl⟩
    · exact .inl ⟨.keyword k, w', rfl⟩
  | _ => exact .inl ⟨_, _, rfl⟩

theorem settles_close (w : World) (b : Bracket) (items : List Value) (frames : List Frame) :
    Settles frames (close w b items frames) := by
  unfold close
  cases b with
  | round => exact .inl ⟨_, _, rfl⟩
  | square => exact .inl ⟨_, _, rfl⟩
  | curly =>
    dsimp only
    split
    · exact .inl ⟨_, _, rfl⟩
    · exact .inr ⟨_, _, rfl⟩

/-- Reading these tokens inside the frames settles, whatever follows them. -/
def ReadsTo (here : Site) (ts : List Token) (w : World) (frames : List Frame) : Prop :=
  ∃ x, Settles frames x ∧ ∀ rest, readFrom w here frames (lexemesOf ts ++ rest) = resume here rest x

/-- The forms inside a bracket are read one after the other. If one is refused, recovery passes over those
behind it and over the bracket that closes the group. -/
theorem readFrom_items (b : Bracket) (items : List Value) (hphrases : ∀ p ∈ phrases, Phrase p)
    (h : ∀ p ∈ phrases, ∀ w frames, ReadsTo here p w frames) (w : World) (frames : List Frame) :
    (∃ items' w', ∀ rest, readFrom w here (.group b items :: frames) (lexemesOf phrases.flatten ++ rest) =
        readFrom w' here (.group b items' :: frames) rest) ∨
      ∃ e w', ∀ rest, readFrom w here (.group b items :: frames)
          (lexemesOf phrases.flatten ++ (Token.closing b).lexeme :: rest) =
        ⟨some (.error e), recover (depth frames) rest, w'⟩ := by
  induction phrases generalizing items w with
  | nil => exact .inl ⟨items, w, fun _ => rfl⟩
  | cons p phrases ih =>
    have hp := List.mem_cons_self (a := p) (l := phrases)
    have hrow : ∀ q ∈ phrases, q ∈ p :: phrases := fun q hq => List.mem_cons_of_mem _ hq
    obtain ⟨x, hx, hread⟩ := h p hp w (.group b items :: frames)
    have hsplit : ∀ rest, lexemesOf (p :: phrases).flatten ++ rest =
        lexemesOf p ++ (lexemesOf phrases.flatten ++ rest) := by
      intro rest
      rw [List.flatten_cons, lexemesOf_append, List.append_assoc]
    obtain ⟨v, w', rfl⟩ | ⟨e, w', rfl⟩ := hx
    · -- The form has become one more item.
      have hnext : ∀ rest, readFrom w here (.group b items :: frames)
          (lexemesOf (p :: phrases).flatten ++ rest) =
            readFrom w' here (.group b (v :: items) :: frames) (lexemesOf phrases.flatten ++ rest) := by
        intro rest
        rw [hsplit, hread]
        rfl
      simp only [hnext]
      exact ih (v :: items) (fun q hq => hphrases q (hrow q hq)) (fun q hq => h q (hrow q hq)) w'
    · refine .inr ⟨e, w', fun rest => ?_⟩
      have hpass : recover (depth frames + 1)
          (lexemesOf phrases.flatten ++ (Token.closing b).lexeme :: rest) =
            recover (depth frames + 1) ((Token.closing b).lexeme :: rest) :=
        recover_flatten (fun q hq => recover_phrase (hphrases q (hrow q hq))) _ _
      rw [hsplit, hread]
      show Reading.mk _ (recover (depth frames + 1) _) _ = _
      rw [hpass]
      rfl

/-- A form is handed on or refused, and if it is refused, reading goes on right behind it. -/
theorem readsTo_phrase (h : Phrase ts) (w : World) (frames : List Frame) : ReadsTo here ts w frames := by
  induction h generalizing w frames with
  | @atom t h => exact ⟨_, settles_atom w here frames h, fun rest => readFrom_token w here frames t rest⟩
  | quoted _ ih =>
    obtain ⟨x, hx, hread⟩ := ih w (.quote :: frames)
    refine ⟨x, hx.unquote, fun rest => ?_⟩
    rw [lexemesOf_cons, List.cons_append, readFrom_token]
    exact hread rest
  | @group b phrases hphrases ih =>
    have hopen : ∀ rest, readFrom w here frames
        (lexemesOf (.opening b :: (phrases.flatten ++ [.closing b])) ++ rest) =
          readFrom w here (.group b [] :: frames)
            (lexemesOf phrases.flatten ++ (Token.closing b).lexeme :: rest) := by
      intro rest
      rw [lexemesOf_cons, List.cons_append, readFrom_token, lexemesOf_append, List.append_assoc]
      rfl
    obtain ⟨items, w', hread⟩ | ⟨e, w', hread⟩ := readFrom_items b [] hphrases ih w frames
    · refine ⟨close w' b items.reverse frames, settles_close _ _ _ _, fun rest => ?_⟩
      rw [hopen, hread, readFrom_token]
      simp [step]
    · exact ⟨_, .inr ⟨e, w', rfl⟩, fun rest => (hopen rest).trans (hread rest)⟩

/-- At the top level a form gives one result, and what follows it is left as it is. -/
theorem next_phrase (h : Phrase ts) (w : World) (here : Site) :
    ∃ r w', ∀ rest, readFrom w here [] (lexemesOf ts ++ rest) = ⟨some r, rest, w'⟩ := by
  have hreads : ReadsTo here ts w [] := readsTo_phrase h w []
  obtain ⟨x, ⟨v, w', rfl⟩ | ⟨e, w', rfl⟩, hread⟩ := hreads
  · exact ⟨.ok v, w', hread⟩
  · exact ⟨.error e, w', fun rest => (hread rest).trans (by cases rest <;> rfl)⟩

/-! ## Reading texts -/

/-- A text is read like its tokens. -/
theorem results_eq {text : String} (h : tokenize text = .ok ts) (w : World) (here : Site) :
    results w here text = resultsUpTo here ts.length w (lexemesOf ts) := by
  have hresults := tokenize_eq_ok_iff.mp h
  have hlength : (lex text).length = ts.length := by simpa using congrArg List.length hresults
  show resultsUpTo here (lex text).length w (lex text) = _
  rw [hlength]
  exact resultsUpTo_congr (hresults.trans (result_lexemesOf ts).symm) _ _

end Reader

/-- The reader reads these texts in turn, each by itself: each is one form at the top level and gives one
result. The tokens are those of all the texts. -/
inductive ReadInTurn (here : Site) :
    World → List String → List Token → List (Except Error Value) → World → Prop
  /-- No text is left. -/
  | nil {w : World} : ReadInTurn here w [] [] [] w
  /-- A text in front of others. -/
  | cons {w w' w'' : World} {text : String} {texts : List String} {ts us : List Token}
    {r : Except Error Value} {rs : List (Except Error Value)} (htokens : tokenize text = .ok ts)
    (hform : TopLevel ts) (hread : Reader.results w here text = ([r], w'))
    (hrest : ReadInTurn here w' texts us rs w'') :
    ReadInTurn here w (text :: texts) (ts ++ us) (r :: rs) w''

/-- The text is read form by form: it consists of texts that are read in turn, to its own results, and perhaps
of something without tokens at its end. -/
def ReadsFormByForm (here : Site) (w : World) (text : String) : Prop :=
  ∃ texts blank ts, text = String.join texts ++ blank ∧ tokenize text = .ok ts ∧
    tokenize blank = .ok [] ∧
      ReadInTurn here w texts ts (Reader.results w here text).1 (Reader.results w here text).2

variable {here : Site} {w : World} {text : String} {ts : List Token} {phrases : List (List Token)}

/-- Phrases are read in turn. -/
theorem readInTurn_phrases {n : Nat} (hphrases : ∀ p ∈ phrases, Phrase p)
    (htokens : tokenize text = .ok phrases.flatten) (hn : phrases.length ≤ n) (w : World) :
    ∃ texts blank, text = String.join texts ++ blank ∧ tokenize blank = .ok [] ∧
      ReadInTurn here w texts phrases.flatten
        (Reader.resultsUpTo here n w (lexemesOf phrases.flatten)).1
        (Reader.resultsUpTo here n w (lexemesOf phrases.flatten)).2 := by
  induction phrases generalizing text n w with
  | nil =>
    refine ⟨[], text, String.empty_append.symm, htokens, ?_⟩
    simp only [List.flatten_nil, lexemesOf_nil, Reader.resultsUpTo_nil]
    exact .nil
  | cons p phrases ih =>
    obtain ⟨n, rfl⟩ := Nat.exists_eq_add_one.mpr (Nat.lt_of_lt_of_le (Nat.succ_pos _) hn)
    have hp : Phrase p := hphrases p (List.mem_cons_self ..)
    -- The text is cut behind the tokens of the first phrase.
    rw [tokenize_eq_ok_iff_kinds, List.flatten_cons, List.map_append] at htokens
    obtain ⟨first, rest, htext, hfirst, hrest⟩ := exists_cut htokens
    have hpiece : tokenize (String.ofList first) = .ok p := by
      rw [tokenize_eq_ok_iff_kinds, String.toList_ofList, hfirst]
    have hothers : tokenize (String.ofList rest) = .ok phrases.flatten := by
      rw [tokenize_eq_ok_iff_kinds, String.toList_ofList, hrest]
    obtain ⟨r, w', hread⟩ := Reader.next_phrase hp w here
    obtain ⟨texts, blank, hjoin, hblank, hturn⟩ :=
      ih (fun q hq => hphrases q (List.mem_cons_of_mem _ hq)) hothers
        (Nat.le_of_succ_le_succ (List.length_cons ▸ hn)) w'
    have halone : Reader.results w here (String.ofList first) = ([r], w') := by
      obtain ⟨k, hk⟩ := Nat.exists_eq_add_one.mpr (List.length_pos_iff.mpr hp.ne_nil)
      rw [Reader.results_eq hpiece, hk, ← List.append_nil (lexemesOf p),
        Reader.resultsUpTo_of_read (hread _), Reader.resultsUpTo_nil]
    refine ⟨String.ofList first :: texts, blank, ?_, hblank, ?_⟩
    · rw [String.join_cons, String.append_assoc, ← hjoin, ← String.toList_inj, htext]
      simp
    · rw [List.flatten_cons, lexemesOf_append, Reader.resultsUpTo_of_read (hread _)]
      exact .cons hpiece hp.topLevel halone hturn

/-- A text without lexical faults, with its brackets nested properly and a form behind each quote mark, is
read form by form. -/
theorem readsFormByForm_of_nests (htokens : tokenize text = .ok ts) (hnests : nests [] ts = true)
    (hquotes : quotesForms ts = true) (here : Site) (w : World) : ReadsFormByForm here w text := by
  obtain ⟨phrases, rest, rfl, hphrases, ⟨-, rfl⟩ | ⟨b, outer, _, ⟨⟩, -⟩⟩ := phrasesInside hnests hquotes
  rw [List.append_nil] at htokens
  obtain ⟨texts, blank, htext, hblank, hturn⟩ :=
    readInTurn_phrases hphrases htokens (length_phrases_le hphrases) w
  rw [← Reader.results_eq htokens] at hturn
  exact ⟨texts, blank, _, htext, htokens, hblank, hturn⟩

/-- An unknown alias and a map with an odd number of forms, each refused by itself, between forms that are read. -/
theorem readsFormByForm_oddMap :
    tokenize "'a (b ::c/d [1]) 2 {3} 4" = .ok [.quote, .symbol "a", .opening .round, .symbol "b",
      .keyword "c/d" true, .opening .square, .int 1, .closing .square, .closing .round, .int 2,
      .opening .curly, .int 3, .closing .curly, .int 4] ∧
    ReadsFormByForm ⟨0, 0⟩ .empty "'a (b ::c/d [1]) 2 {3} 4" := by
  have htokens : tokenize "'a (b ::c/d [1]) 2 {3} 4" = .ok [.quote, .symbol "a", .opening .round,
      .symbol "b", .keyword "c/d" true, .opening .square, .int 1, .closing .square, .closing .round,
      .int 2, .opening .curly, .int 3, .closing .curly, .int 4] := by
    cbv
  exact ⟨htokens, readsFormByForm_of_nests htokens (by decide) (by decide) ⟨0, 0⟩ .empty⟩

/-- What `readsFormByForm_of_nests` would say of all texts, also of those with a quote mark that has no form
behind it. -/
def NestedTextsReadFormByForm : Prop :=
  ∀ (here : Site) (w : World) (text : String) (ts : List Token),
    tokenize text = .ok ts → nests [] ts = true → ReadsFormByForm here w text

/-- The closing bracket behind the quote mark is used up, so recovery waits for another one, and the 1 is
never read. -/
theorem not_nestedTextsReadFormByForm : ¬ NestedTextsReadFormByForm := by
  intro h
  have htokens : tokenize "(') 1" = .ok [.opening .round, .quote, .closing .round, .int 1] := by
    cbv
  obtain ⟨texts, blank, ts, -, hts, -, hturn⟩ := h ⟨0, 0⟩ .empty "(') 1" _ htokens (by decide)
  have hresults : (Reader.results .empty ⟨0, 0⟩ "(') 1").1 =
      [.error (.parse (.unexpectedClosing .round))] := by
    cbv
  rw [htokens] at hts
  cases hts
  rw [hresults] at hturn
  generalize hus : [Token.opening .round, .quote, .closing .round, .int 1] = us at hturn
  cases hturn with
  | @cons _ _ _ _ _ form _ _ _ _ hform _ hrest =>
    cases hrest
    rw [List.append_nil] at hus
    -- The one form would have to end with the number, but a group ends with its bracket.
    have hlast : form.getLast? = some (.int 1) := by rw [← hus]; rfl
    cases hform with
    | atom _ => cases hus
    | quoted _ => cases hus
    | @group b ts _ =>
      rw [← List.cons_append, List.getLast?_concat] at hlast
      cases hlast

end SmallLisp
