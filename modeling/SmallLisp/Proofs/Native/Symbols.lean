import SmallLisp.Evaluation
import SmallLisp.Proofs.Reader.Objects
import SmallLisp.Proofs.Reader.Results
import SmallLisp.Proofs.Session.Keywords
import SmallLisp.Proofs.Value.Written

/-!
# Symbols and their texts

A text is the text of the symbol that it stands for. The other way round, a symbol is what its text stands for just if
no slash comes too early in it (`Symbol.Legible`). Every symbol that the reader gives is of this kind
(`Reader.legible_of_results`), so the functions `symbol` and `keyword` find it again from its text
(`symbols_and_texts`).
-/

namespace SmallLisp

/-! ## Texts -/

namespace Symbol

variable {s t : Symbol}

/-- A name alone whose first slash, if there is any, is its first or its last character; or some name under a
namespace part without a slash. -/
def Legible (s : Symbol) : Prop :=
  (s.isQualified = false ∧ ('/' ∈ s.name.toList →
    s.name.toList.idxOf '/' = 0 ∨ s.name.toList.idxOf '/' + 1 = s.name.toList.length)) ∨
  (s.isQualified = true ∧ '/' ∉ s.ns.toList ∧ s.name ≠ "")

/-- What no slash splits stays in one piece. -/
theorem splitSlash_of_notMem {cs : List Char} (h : '/' ∉ cs) : splitSlash cs = none := by
  cases hsplit : splitSlash cs with
  | none => rfl
  | some parts =>
    obtain ⟨heq, -⟩ := eq_append_of_splitSlash hsplit
    rw [heq] at h
    exact absurd (List.mem_append_right _ (List.mem_cons_self ..)) h

/-- A text whose first slash ends it stays in one piece. -/
theorem splitSlash_append_nil {before : List Char} (hslash : '/' ∉ before) :
    splitSlash (before ++ ['/']) = none := by
  have hall : ∀ c ∈ before, (c != '/') = true := by
    intro c hc
    rw [bne_iff_ne]
    rintro rfl
    exact hslash hc
  unfold splitSlash
  rw [List.span_eq_takeWhile_dropWhile, List.takeWhile_append_of_pos hall, List.dropWhile_append_of_pos hall]
  cases before <;> rfl

/-- A text stays in one piece just if its first slash has nothing before it or nothing behind it. -/
theorem splitSlash_eq_none_iff {cs : List Char} : splitSlash cs = none ↔
    ('/' ∈ cs → cs.idxOf '/' = 0 ∨ cs.idxOf '/' + 1 = cs.length) := by
  by_cases hmem : '/' ∈ cs
  · obtain ⟨before, after, rfl, hslash⟩ := List.eq_append_cons_of_mem hmem
    have hidx : (before ++ '/' :: after).idxOf '/' = before.length := by
      rw [List.idxOf_append_of_notMem hslash, List.idxOf_cons_self, Nat.add_zero]
    rw [hidx]
    by_cases hbefore : before = []
    · subst hbefore
      exact iff_of_true rfl fun _ => .inl rfl
    by_cases hafter : after = []
    · subst hafter
      exact iff_of_true (splitSlash_append_nil hslash) fun _ => .inr (by simp)
    · rw [splitSlash_append hbefore hslash hafter]
      simp [hbefore, hafter]
  · exact iff_of_true (splitSlash_of_notMem hmem) fun h => absurd h hmem

/-- Where a text falls apart, no slash stands in its first part, and the second one is not empty. -/
theorem of_splitSlash {cs before after : List Char} (h : splitSlash cs = some (before, after)) :
    '/' ∉ before ∧ after ≠ [] := by
  unfold splitSlash at h
  rw [List.span_eq_takeWhile_dropWhile] at h
  split at h
  · rename_i c first x d second heq
    cases h
    obtain ⟨hbefore, -⟩ := Prod.mk.inj heq
    refine ⟨fun hmem => ?_, List.cons_ne_nil _ _⟩
    have hslash := List.mem_takeWhile_imp (hbefore ▸ hmem)
    simp at hslash
  · cases h

/-- What a text stands for is read from its text. -/
theorem legible_parse (text : String) : (parse text).Legible := by
  unfold parse
  cases hsplit : splitSlash text.toList with
  | none => exact .inl ⟨isQualified_bare text, splitSlash_eq_none_iff.mp hsplit⟩
  | some parts =>
    obtain ⟨before, after⟩ := parts
    obtain ⟨-, hbefore⟩ := eq_append_of_splitSlash hsplit
    obtain ⟨hslash, hafter⟩ := of_splitSlash hsplit
    exact .inr ⟨by simpa [isQualified] using hbefore, by simpa using hslash, by simpa using hafter⟩

/-- A symbol is what its text stands for just if no slash comes too early. -/
theorem parse_text_iff (s : Symbol) : parse s.text = s ↔ s.Legible := by
  constructor
  · intro h
    rw [← h]
    exact legible_parse _
  · obtain ⟨ns, name⟩ := s
    rintro (⟨hbare, hslash⟩ | ⟨hqualified, hslash, hname⟩)
    · obtain rfl : ns = "" := by simpa [isQualified] using hbare
      unfold parse
      rw [show (Symbol.mk "" name).text = name from text_bare name, splitSlash_eq_none_iff.mpr hslash]
      rfl
    · exact parse_text_qualified (by simpa [isQualified] using hqualified) hslash hname

/-- Such symbols are told apart by their texts. -/
theorem eq_of_text_eq (hs : s.Legible) (ht : t.Legible) (h : s.text = t.text) : s = t := by
  rw [← (parse_text_iff s).mpr hs, h, (parse_text_iff t).mpr ht]

end Symbol

/-! ## Reading -/

namespace Reader

/-- What holds of the values of all tokens, and of a collection if it holds of all that stands in it. -/
structure Builds (P : Value → Prop) : Prop where
  int : ∀ n, P (.int n)
  float : ∀ x, P (.float x)
  str : ∀ id text, P (.str id text)
  symbol : ∀ text, P (Value.ofSymbolText text)
  keyword : ∀ k, P (.keyword k)
  list : ∀ id {items}, (∀ v ∈ items, P v) → P (.list id items)
  vector : ∀ id {items}, (∀ v ∈ items, P v) → P (.vector id items)
  map : ∀ id {entries : List (Value × Value)}, (∀ e ∈ entries, P e.1 ∧ P e.2) → P (.map id entries)

/-- It holds of what has been read inside a bracket. -/
def HoldsInside (P : Value → Prop) : Frame → Prop
  | .quote => True
  | .group _ items => ∀ v ∈ items, P v

/-- It holds of what a token leads to: a form, or what has been read inside all open brackets. -/
def HoldsOf (P : Value → Prop) : ReadStep → Prop
  | .form v => P v
  | .pending frames => ∀ f ∈ frames, HoldsInside P f
  | .refused _ _ => True

namespace Builds

variable {P : Value → Prop} {w : World} {here : Site} {v : Value} {frames : List Frame} {items : List Value}
  {text : String}

theorem supply (h : Builds P) (hv : P v) (hframes : ∀ f ∈ frames, HoldsInside P f) :
    HoldsOf P (Reader.supply w v frames).1 := by
  induction frames generalizing w v with
  | nil => exact hv
  | cons frame frames ih =>
    obtain ⟨hframe, houter⟩ := List.forall_mem_cons.mp hframes
    cases frame with
    | quote =>
      -- The quote mark stands for the symbol that its name is read as.
      have hquote : P (.symbol quoteSymbol) := h.symbol "quote"
      exact ih (h.list _ (List.forall_mem_cons.mpr ⟨hquote, List.forall_mem_singleton.mpr hv⟩)) houter
    | group b items =>
      have hitems : HoldsInside P (.group b (v :: items)) := List.forall_mem_cons.mpr ⟨hv, hframe⟩
      exact List.forall_mem_cons.mpr ⟨hitems, houter⟩

theorem close (h : Builds P) (b : Bracket) (hitems : ∀ v ∈ items, P v)
    (hframes : ∀ f ∈ frames, HoldsInside P f) : HoldsOf P (Reader.close w b items frames).1 := by
  unfold Reader.close
  cases b with
  | round => exact h.supply (h.list _ hitems) hframes
  | square => exact h.supply (h.vector _ hitems) hframes
  | curly =>
    dsimp only
    split
    · refine h.supply (h.map _ fun e he => ?_) hframes
      have hmem := Value.mem_of_mem_pairUp (Value.mem_of_mem_entriesOf e he)
      exact ⟨hitems _ hmem.1, hitems _ hmem.2⟩
    · trivial

theorem step (h : Builds P) (hframes : ∀ f ∈ frames, HoldsInside P f) (t : Token) :
    HoldsOf P (Reader.step w here frames t).1 := by
  unfold Reader.step
  cases t with
  | int n => exact h.supply (h.int n) hframes
  | float x => exact h.supply (h.float x) hframes
  | str text => exact h.supply (h.str _ text) hframes
  | symbol text => exact h.supply (h.symbol text) hframes
  | keyword text auto =>
    dsimp only
    split
    · exact h.supply (h.keyword _) hframes
    · trivial
  | quote => exact List.forall_mem_cons.mpr ⟨trivial, hframes⟩
  | opening b => exact List.forall_mem_cons.mpr ⟨nofun, hframes⟩
  | closing b =>
    dsimp only
    split
    · rename_i b' items outer
      obtain ⟨hgroup, houter⟩ := List.forall_mem_cons.mp hframes
      split
      · exact h.close b (fun v hv => hgroup v (List.mem_reverse.mp hv)) houter
      · trivial
    · trivial

theorem readFrom (h : Builds P) {ls : List Lexeme} (hframes : ∀ f ∈ frames, HoldsInside P f)
    (hv : (Reader.readFrom w here frames ls).result = some (.ok v)) : P v := by
  induction ls generalizing w frames with
  | nil => cases frames <;> cases hv
  | cons l ls ih =>
    rw [Reader.readFrom] at hv
    cases hl : l.result with
    | error e =>
      rw [hl] at hv
      cases hv
    | ok t =>
      have hstep : HoldsOf P (Reader.step w here frames t).1 := h.step hframes t
      rw [hl] at hv
      dsimp only at hv
      generalize Reader.step w here frames t = r at hstep hv
      obtain ⟨x | frames' | ⟨e, d⟩, u⟩ := r
      · cases hv
        exact hstep
      · exact ih hstep hv
      · cases hv

/-- It holds of every form that the reader takes off the front of some lexemes. -/
theorem next (h : Builds P) {ls : List Lexeme} (hv : (Reader.next w here ls).result = some (.ok v)) : P v := by
  have hnone : ∀ f ∈ ([] : List Frame), HoldsInside P f := nofun
  exact h.readFrom hnone hv

end Builds

/-- A symbol stands inside a value only where one has been read. -/
theorem builds_legible : Builds fun v => ∀ k, Value.Part (.symbol k) v → k.Legible where
  int _ _ := nofun
  float _ _ := nofun
  str _ _ _ := nofun
  symbol text k hpart := by
    unfold Value.ofSymbolText at hpart
    split_ifs at hpart
    · cases hpart
    · cases hpart
    · cases hpart
    · cases hpart
      exact Symbol.legible_parse text
  keyword _ _ := nofun
  list _ _ h k hpart := by
    obtain ⟨v, hv, hk⟩ := (Value.part_list_iff rfl).mp hpart
    exact h v hv k hk
  vector _ _ h k hpart := by
    obtain ⟨v, hv, hk⟩ := (Value.part_vector_iff rfl).mp hpart
    exact h v hv k hk
  map _ _ h k hpart := by
    obtain ⟨e, he, hk | hk⟩ := (Value.part_map_iff rfl).mp hpart
    · exact (h e he).1 k hk
    · exact (h e he).2 k hk

/-- All symbols inside a form that the reader gives are found again from their texts. -/
theorem legible_of_next {w : World} {here : Site} {ls : List Lexeme} {v : Value} {k : Symbol}
    (hv : (next w here ls).result = some (.ok v)) (hk : Value.Part (.symbol k) v) : k.Legible :=
  builds_legible.next hv k hk

end Reader

/-! ## The functions -/

section

variable {k : Symbol} (h : k.Legible) (here : Site) (depth : Nat) (w : World)
include h

/-- A symbol that its text stands for is the `symbol` of itself. -/
theorem apply_symbol : apply here (depth + 1) (.native .symbol) [.symbol k] w = .ok (.symbol k) w := by
  have hparse := (Symbol.parse_text_iff k).mpr h
  show EStateM.Result.ok (Value.symbol (Symbol.parse k.text)) w = _
  rw [hparse]

/-- A keyword is the `keyword` of itself if its registry holds it under its name and its text stands for that. -/
theorem apply_keyword {kw : Keyword} (hsym : kw.sym = k)
    (hlookup : (w.registry here.registry).keywords.lookup k = some kw) :
    apply here (depth + 1) (.native .keyword) [.keyword kw] w = .ok (.keyword kw) w := by
  have hparse := (Symbol.parse_text_iff k).mpr h
  have hintern := w.internKeyword_of_lookup here.registry hlookup
  have hcall : apply here (depth + 1) (.native .keyword) [.keyword kw] w =
      .ok (.keyword (w.internKeyword here.registry (Symbol.parse kw.sym.text)).1)
        (w.internKeyword here.registry (Symbol.parse kw.sym.text)).2 := rfl
  rw [hcall, hsym, hparse, hintern]

end

/-- Every text is the text of the symbol that it stands for. A symbol is what its text stands for just if it is
legible, so legible symbols are told apart by their texts. Every symbol inside a form that the reader gives, in
whatever world, is the `symbol` of itself, and the keyword of its name the `keyword` of itself. -/
theorem symbols_and_texts :
    (∀ t, (Symbol.parse t).text = t) ∧
    (∀ s, Symbol.parse s.text = s ↔ s.Legible) ∧
    (∀ s t : Symbol, s.Legible → t.Legible → s ≠ t → s.text ≠ t.text) ∧
    ∀ w here ls v k, (Reader.next w here ls).result = some (.ok v) → Value.Part (.symbol k) v →
      ∀ u there depth,
        apply there (depth + 1) (.native .symbol) [.symbol k] u = .ok (.symbol k) u ∧
        (Reachable u → there.registry < u.registries.size →
          ∀ kw u', u.internKeyword there.registry k = (kw, u') →
            kw.sym = k ∧ apply there (depth + 1) (.native .keyword) [.keyword kw] u' = .ok (.keyword kw) u') := by
  refine ⟨Symbol.text_parse, Symbol.parse_text_iff, fun s t hs ht hne heq => ?_,
    fun w here ls v k hv hk u there depth => ?_⟩
  · exact hne (Symbol.eq_of_text_eq hs ht heq)
  · have hlegible := Reader.legible_of_next hv hk
    refine ⟨apply_symbol hlegible there depth u, fun hu hr kw u' hkw => ?_⟩
    obtain ⟨hsym, -⟩ := (reachable_faithful hu).internKeyword there.registry k
    have hlookup := u.lookup_internKeyword there.registry hr k
    rw [hkw] at hsym hlookup
    exact ⟨hsym, apply_keyword hlegible there depth u' hsym hlookup⟩

/-- A symbol of two slashes, inside a quoted list. -/
theorem symbols_and_texts_quoted :
    let w := World.empty.after (.create 0 100)
    let k : Symbol := ⟨"core", "/"⟩
    let v : Value := .list 1 [.symbol quoteSymbol, .list 0 [.symbol k, .symbol ⟨"", "/a"⟩]]
    let made := w.internKeyword 0 k
    (Reader.next w ⟨0, 0⟩ (lex "'(core// /a)")).result = some (.ok v) ∧ Value.Part (.symbol k) v ∧
      apply ⟨0, 0⟩ 1 (.native .symbol) [.symbol k] w = .ok (.symbol k) w ∧
      Reachable w ∧ 0 < w.registries.size ∧ made.1.sym = k ∧
      apply ⟨0, 0⟩ 1 (.native .keyword) [.keyword made.1] made.2 = .ok (.keyword made.1) made.2 := by
  have hv : (Reader.next (World.empty.after (.create 0 100)) ⟨0, 0⟩ (lex "'(core// /a)")).result =
      some (.ok (.list 1 [.symbol quoteSymbol, .list 0 [.symbol ⟨"core", "/"⟩, .symbol ⟨"", "/a"⟩]])) := by cbv
  have hk : Value.Part (.symbol ⟨"core", "/"⟩)
      (.list 1 [.symbol quoteSymbol, .list 0 [.symbol ⟨"core", "/"⟩, .symbol ⟨"", "/a"⟩]]) :=
    .list (List.mem_cons_of_mem _ (List.mem_singleton_self _)) (.list (List.mem_cons_self ..) .self)
  have hr : 0 < (World.empty.after (.create 0 100)).registries.size := by cbv
  intro w k v made
  have hw : Reachable w := Reachable.empty.after _
  obtain ⟨-, -, -, hread⟩ := symbols_and_texts
  obtain ⟨hsymbol, hkeyword⟩ := hread w ⟨0, 0⟩ (lex "'(core// /a)") v k hv hk w ⟨0, 0⟩ 0
  exact ⟨hv, hk, hsymbol, hw, hr, hkeyword hw hr made.1 made.2 rfl⟩

end SmallLisp
