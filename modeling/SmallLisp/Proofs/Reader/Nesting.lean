import SmallLisp.Token

/-!
# Nested tokens

The brackets of a text alone tell where its forms at the top level are (`nests`, `TopLevel`). What a bracket
holds is a row of forms as well, if each quote mark has a form behind it (`quotesForms`): then the tokens are
phrases, one after the other (`phrasesInside`), by which an induction can follow the reader.
-/

namespace SmallLisp

/-- Whether a token is a form by itself: it is neither a bracket nor a quote mark. -/
def Token.isAtom : Token → Bool
  | .opening _ | .closing _ | .quote => false
  | _ => true

/-- Whether tokens nest properly inside these brackets, the innermost first: each closing bracket is of the
kind of the innermost open one, and none is left open. -/
def nests : List Bracket → List Token → Bool
  | outer, [] => outer.isEmpty
  | outer, .opening b :: ts => nests (b :: outer) ts
  | b :: outer, .closing b' :: ts => b == b' && nests outer ts
  | [], .closing _ :: _ => false
  | outer, _ :: ts => nests outer ts

/-- Whether each quote mark has a form behind it: neither a closing bracket nor the end comes next. -/
def quotesForms : List Token → Bool
  | [] => true
  | [.quote] => false
  | .quote :: .closing _ :: _ => false
  | _ :: ts => quotesForms ts

/-- The tokens of one form at the top level, as the brackets tell it: a token that is a form by itself, or a
bracketed group, behind any number of quote marks. -/
inductive TopLevel : List Token → Prop
  /-- A token by itself. -/
  | atom {t : Token} (h : t.isAtom = true) : TopLevel [t]
  /-- A quote mark in front. -/
  | quoted {ts : List Token} (h : TopLevel ts) : TopLevel (.quote :: ts)
  /-- A group. -/
  | group (b : Bracket) {ts : List Token} (h : nests [] ts = true) :
    TopLevel (.opening b :: (ts ++ [.closing b]))

/-- The tokens of one form that is made of forms all the way down. -/
inductive Phrase : List Token → Prop
  /-- A token by itself. -/
  | atom {t : Token} (h : t.isAtom = true) : Phrase [t]
  /-- A quote mark in front. -/
  | quoted {ts : List Token} (h : Phrase ts) : Phrase (.quote :: ts)
  /-- A group of forms. -/
  | group (b : Bracket) {phrases : List (List Token)} (h : ∀ ts ∈ phrases, Phrase ts) :
    Phrase (.opening b :: (phrases.flatten ++ [.closing b]))

variable {t : Token} {ts us : List Token} {outer : List Bracket} {phrases : List (List Token)}

theorem nests_of_isAtom (h : t.isAtom = true) : nests outer (t :: ts) = nests outer ts := by
  cases t with
  | opening b => cases h
  | closing b => cases h
  | _ => rfl

theorem quotesForms_tail (h : quotesForms (t :: ts) = true) : quotesForms ts = true := by
  cases t with
  | quote =>
    match ts with
    | [] => rfl
    | .closing _ :: _ => cases h
    | .opening _ :: _ | .quote :: _ | .int _ :: _ | .float _ :: _ | .str _ :: _ | .symbol _ :: _
    | .keyword _ _ :: _ => exact h
  | _ => exact h

/-- Behind a quote mark stands something that is no closing bracket. -/
theorem of_quotesForms_quote (h : quotesForms (.quote :: ts) = true) :
    ∃ t us, ts = t :: us ∧ ∀ b, t ≠ .closing b := by
  cases ts with
  | nil => cases h
  | cons t us =>
    refine ⟨t, us, rfl, ?_⟩
    rintro b rfl
    cases h

theorem Phrase.ne_nil (h : Phrase ts) : ts ≠ [] := by
  cases h <;> exact List.cons_ne_nil _ _

/-- There are at least as many tokens as phrases. -/
theorem length_phrases_le (h : ∀ p ∈ phrases, Phrase p) : phrases.length ≤ phrases.flatten.length := by
  induction phrases with
  | nil => exact Nat.le_refl 0
  | cons p phrases ih =>
    have hpos := List.length_pos_iff.mpr (h p (List.mem_cons_self ..)).ne_nil
    have hle := ih fun q hq => h q (List.mem_cons_of_mem _ hq)
    rw [List.flatten_cons, List.length_append, List.length_cons]
    omega

/-- Inside these brackets there are phrases, up to the end or to the bracket that closes the innermost one. -/
def PhrasesInside (outer : List Bracket) (ts : List Token) : Prop :=
  ∃ (phrases : List (List Token)) (rest : List Token),
    ts = phrases.flatten ++ rest ∧ (∀ p ∈ phrases, Phrase p) ∧
      (outer = [] ∧ rest = [] ∨ ∃ b outer' rest', outer = b :: outer' ∧ rest = .closing b :: rest' ∧
        nests outer' rest' = true ∧ quotesForms rest' = true)

theorem PhrasesInside.cons (h : PhrasesInside outer us) (hp : Phrase ts) :
    PhrasesInside outer (ts ++ us) := by
  obtain ⟨phrases, rest, rfl, hphrases, hrest⟩ := h
  refine ⟨ts :: phrases, rest, by simp, fun p hp' => ?_, hrest⟩
  obtain rfl | hp' := List.mem_cons.mp hp'
  · exact hp
  · exact hphrases p hp'

/-- A bracket opens a phrase, if the phrases behind it go up to the one that closes it. -/
theorem PhrasesInside.group {b : Bracket} (h : PhrasesInside (b :: outer) ts)
    (hrest : ∀ us, us.length < ts.length → nests outer us = true → quotesForms us = true → PhrasesInside outer us) :
    PhrasesInside outer (.opening b :: ts) := by
  obtain ⟨items, rest, rfl, hitems, ⟨⟨⟩, -⟩ | ⟨b', outer', rest', houter, rfl, hnest, hquotes⟩⟩ := h
  obtain ⟨rfl, rfl⟩ := List.cons.inj houter
  have hshort : rest'.length < (items.flatten ++ .closing b :: rest').length := by
    rw [List.length_append, List.length_cons]
    omega
  have hbehind := (hrest rest' hshort hnest hquotes).cons (.group b hitems)
  simpa using hbehind

/-- The first phrase behind a quote mark is what it quotes. -/
theorem PhrasesInside.quoted (h : PhrasesInside outer ts) (hquotes : quotesForms (.quote :: ts) = true) :
    PhrasesInside outer (.quote :: ts) := by
  obtain ⟨phrases, rest, hts, hphrases, hrest⟩ := h
  obtain ⟨t, us, rfl, hclosing⟩ := of_quotesForms_quote hquotes
  cases phrases with
  | nil =>
    obtain ⟨-, rfl⟩ | ⟨b, _, _, -, rfl, -⟩ := hrest
    · cases hts
    · exact absurd (List.cons.inj hts).1 (hclosing b)
  | cons p phrases =>
    refine ⟨(.quote :: p) :: phrases, rest, congrArg (Token.quote :: ·) hts, ?_, hrest⟩
    intro q hq
    obtain rfl | hq := List.mem_cons.mp hq
    · exact .quoted (hphrases p (List.mem_cons_self ..))
    · exact hphrases q (List.mem_cons_of_mem _ hq)

/-- Nested tokens are phrases, if each quote mark has a form behind it. -/
theorem phrasesInside (hnest : nests outer ts = true) (hquotes : quotesForms ts = true) :
    PhrasesInside outer ts := by
  induction hn : ts.length using Nat.strongRecOn generalizing ts outer with
  | ind n ih =>
    cases ts with
    | nil =>
      have houter : outer = [] := List.isEmpty_iff.mp hnest
      exact ⟨[], [], rfl, nofun, .inl ⟨houter, rfl⟩⟩
    | cons t ts =>
      have htail := quotesForms_tail hquotes
      have hlt : ts.length < n := by
        rw [← hn]
        exact Nat.lt_succ_self _
      cases hatom : t.isAtom with
      | true =>
        rw [nests_of_isAtom hatom] at hnest
        exact (ih _ hlt hnest htail rfl).cons (.atom hatom)
      | false =>
        cases t with
        | opening b =>
          have hinside : nests (b :: outer) ts = true := hnest
          exact (ih _ hlt hinside htail rfl).group fun us hus hnest hquotes =>
            ih _ (Nat.lt_trans hus hlt) hnest hquotes rfl
        | closing b =>
          cases outer with
          | nil => cases hnest
          | cons b' outer' =>
            obtain ⟨hb, hnest'⟩ := Bool.and_eq_true_iff.mp hnest
            obtain rfl := beq_iff_eq.mp hb
            exact ⟨[], _, rfl, nofun, .inr ⟨_, outer', ts, rfl, rfl, hnest', htail⟩⟩
        | quote =>
          have hbehind : nests outer ts = true := hnest
          exact (ih _ hlt hbehind htail rfl).quoted hquotes
        | _ => cases hatom

/-- Phrases leave the open brackets as they are, if each of them does. -/
theorem nests_flatten (h : ∀ p ∈ phrases, ∀ outer us, nests outer (p ++ us) = nests outer us)
    (outer : List Bracket) (us : List Token) :
    nests outer (phrases.flatten ++ us) = nests outer us := by
  induction phrases with
  | nil => rfl
  | cons p phrases ih =>
    rw [List.flatten_cons, List.append_assoc, h p (List.mem_cons_self ..)]
    exact ih fun q hq => h q (List.mem_cons_of_mem _ hq)

theorem Phrase.nests_append (h : Phrase ts) (outer : List Bracket) (us : List Token) :
    nests outer (ts ++ us) = nests outer us := by
  induction h generalizing outer us with
  | atom h => exact nests_of_isAtom h
  | quoted _ ih => exact ih outer us
  | group b _ ih =>
    rw [List.cons_append, List.append_assoc]
    show nests (b :: outer) _ = _
    rw [nests_flatten ih]
    simp [nests]

/-- A phrase is one form at the top level. -/
theorem Phrase.topLevel (h : Phrase ts) : TopLevel ts := by
  induction h with
  | atom h => exact .atom h
  | quoted _ ih => exact .quoted ih
  | @group b phrases h _ =>
    have hitems := nests_flatten (fun p hp => (h p hp).nests_append) [] []
    rw [List.append_nil] at hitems
    exact .group b hitems

end SmallLisp
