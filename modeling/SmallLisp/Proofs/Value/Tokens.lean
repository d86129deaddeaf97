import SmallLisp.Proofs.Value.Written
import SmallLisp.Value.Printer

/-!
# The tokens of a printed value

The text of a value that can be written is lexed to the tokens of the value, unless a string inside it shows a
character by its number: then there is a lexical fault among its lexemes (`Value.spells_text`).
-/

namespace SmallLisp

variable {s s' sep : String} {ts ts' : List Token} {broken broken' : Prop}

/-! ## Texts side by side -/

/-- Where a word may end behind it, a text is lexed to these tokens, unless it is broken: then an escape in it is
at fault. -/
structure Spells (s : String) (ts : List Token) (broken : Prop) : Prop where
  whole : ¬ broken → ∀ rest, EndsWord rest →
    kinds (s.toList ++ rest) = ts.map .ok ++ kinds rest
  faulty : broken → ∀ rest, EndsWord rest →
    .error (.invalidEscape 'u') ∈ kinds (s.toList ++ rest)

/-- A text that ends words, and is skipped itself. -/
structure Separates (sep : String) : Prop where
  endsWord : ∀ rest, EndsWord (sep.toList ++ rest)
  kinds_append : ∀ rest, kinds (sep.toList ++ rest) = kinds rest

theorem endsWord_cons {c : Char} (h : isDelimiter c = true) (rest : List Char) : EndsWord (c :: rest) := by
  rintro d ⟨⟩
  exact h

theorem separates_space : Separates " " :=
  ⟨endsWord_cons (by decide), kinds_space⟩

theorem separates_comma : Separates ", " :=
  ⟨fun rest => endsWord_cons (by decide) (' ' :: rest),
    fun rest => (kinds_comma (' ' :: rest)).trans (kinds_space rest)⟩

namespace Spells

/-- A text of one token. -/
theorem of_kinds {t : Token}
    (h : ∀ rest, EndsWord rest → kinds (s.toList ++ rest) = .ok t :: kinds rest) :
    Spells s [t] False :=
  ⟨fun _ => h, False.elim⟩

theorem empty : Spells "" [] False := ⟨fun _ _ _ => rfl, False.elim⟩

theorem congr (h : Spells s ts broken) (hiff : broken' ↔ broken) : Spells s ts broken' :=
  ⟨fun hb => h.whole (mt hiff.mpr hb), fun hb => h.faulty (hiff.mp hb)⟩

/-- Of two texts with a separator between them, the first fault is one of the first text if that one is
broken. -/
theorem append (h : Spells s ts broken) (hsep : Separates sep) (h' : Spells s' ts' broken') :
    Spells (s ++ sep ++ s') (ts ++ ts') (broken ∨ broken') := by
  have hlist : ∀ rest, (s ++ sep ++ s').toList ++ rest =
      s.toList ++ (sep.toList ++ (s'.toList ++ rest)) := by simp
  constructor
  · intro hb rest hrest
    rw [not_or] at hb
    rw [hlist, h.whole hb.1 _ (hsep.endsWord _), hsep.kinds_append, h'.whole hb.2 rest hrest,
      List.map_append, List.append_assoc]
  · intro hb rest hrest
    rw [hlist]
    -- Only a text that is whole is sure to be followed by the lexemes of the other one.
    by_cases hfirst : broken
    · exact h.faulty hfirst _ (hsep.endsWord _)
    · have hfault := h'.faulty (hb.resolve_left hfirst) rest hrest
      rw [h.whole hfirst _ (hsep.endsWord _), hsep.kinds_append]
      exact List.mem_append_right _ hfault

/-- Texts with separators between them. -/
theorem intercalate {α : Type} {xs : List α} {text : α → String} {tokens : α → List Token}
    {broken : α → Prop} (hsep : Separates sep) (h : ∀ x ∈ xs, Spells (text x) (tokens x) (broken x)) :
    Spells (sep.intercalate (xs.map text)) (xs.flatMap tokens) (∃ x ∈ xs, broken x) := by
  induction xs with
  | nil => exact (String.intercalate_nil (s := sep) ▸ empty).congr (by simp)
  | cons x xs ih =>
    obtain ⟨hx, hxs⟩ := List.forall_mem_cons.mp h
    rw [List.map_cons, List.flatMap_cons]
    cases xs with
    | nil => simpa using hx
    | cons y ys =>
      rw [List.map_cons, String.intercalate_cons_cons, ← List.map_cons]
      exact (hx.append hsep (ih hxs)).congr (List.exists_mem_cons_iff ..)

/-- A text between brackets. -/
theorem group (b : Bracket) (h : Spells s ts broken) :
    Spells (String.singleton b.opener ++ s ++ String.singleton b.closer)
      (.opening b :: (ts ++ [.closing b])) broken := by
  have hlist : ∀ rest,
      (String.singleton b.opener ++ s ++ String.singleton b.closer).toList ++ rest =
        b.opener :: (s.toList ++ b.closer :: rest) := by simp
  have hend : ∀ rest, EndsWord (b.closer :: rest) := endsWord_cons (by cases b <;> decide)
  constructor
  · intro hb rest _
    rw [hlist, kinds_opener, h.whole hb _ (hend rest), kinds_closer]
    simp
  · intro hb rest _
    rw [hlist, kinds_opener]
    exact List.mem_cons_of_mem _ (h.faulty hb _ (hend rest))

end Spells

namespace Value

/-! ## Values -/

mutual

/-- The tokens of a value that can be written. -/
def tokens : Value → List Token
  | nil => [.symbol "nil"]
  | bool b => [.symbol (if b then "true" else "false")]
  | int n => [.int n]
  | float x => [.float x]
  | str _ text => [.str text]
  | symbol s => [.symbol s.text]
  | keyword k => [.keyword k.sym.text false]
  | list _ items => .opening .round :: (itemTokens items ++ [.closing .round])
  | vector _ items => .opening .square :: (itemTokens items ++ [.closing .square])
  | map _ entries => .opening .curly :: (entryTokens entries ++ [.closing .curly])
  | native _ | function _ | ns _ | var _ => []

/-- The tokens of the items between brackets. -/
def itemTokens : List Value → List Token
  | [] => []
  | v :: vs => v.tokens ++ itemTokens vs

/-- The tokens of the entries of a map. -/
def entryTokens : List (Value × Value) → List Token
  | [] => []
  | (k, v) :: es => k.tokens ++ v.tokens ++ entryTokens es

end

attribute [grind =] tokens itemTokens entryTokens

variable {v : Value} {id : ObjectId} {items : List Value} {entries : List (Value × Value)}

theorem itemTokens_eq_flatMap (vs : List Value) : itemTokens vs = vs.flatMap tokens := by
  induction vs with
  | nil => rfl
  | cons v vs ih => rw [itemTokens, ih, List.flatMap_cons]

theorem entryTokens_eq_flatMap (es : List (Value × Value)) :
    entryTokens es = es.flatMap fun e => e.1.tokens ++ e.2.tokens := by
  induction es with
  | nil => rfl
  | cons e es ih => rw [entryTokens, ih, List.flatMap_cons]

theorem texts_eq_map (vs : List Value) : texts vs = vs.map text := by
  induction vs with
  | nil => rfl
  | cons v vs ih => rw [texts, ih, List.map_cons]

theorem entryTexts_eq_map (es : List (Value × Value)) :
    entryTexts es = es.map fun e => e.1.text ++ " " ++ e.2.text := by
  induction es with
  | nil => rfl
  | cons e es ih => rw [entryTexts, ih, List.map_cons]

/-- No float stands inside the value. -/
def NoFloat (v : Value) : Prop := ∀ x, ¬ Part (.float x) v

theorem noFloat_list : NoFloat (list id items) ↔ ∀ v ∈ items, NoFloat v := by
  unfold NoFloat
  simp only [part_list_iff (a := .float _) rfl]
  grind

theorem noFloat_vector : NoFloat (vector id items) ↔ ∀ v ∈ items, NoFloat v := by
  unfold NoFloat
  simp only [part_vector_iff (a := .float _) rfl]
  grind

theorem noFloat_map :
    NoFloat (map id entries) ↔ ∀ e ∈ entries, NoFloat e.1 ∧ NoFloat e.2 := by
  unfold NoFloat
  simp only [part_map_iff (a := .float _) rfl]
  grind

/-- What has no parts is a float itself, or has none inside it. -/
theorem noFloat_plain (hv : ∃ x, v.view = .atom x) : NoFloat v ↔ ∀ x, v ≠ .float x := by
  obtain ⟨y, hy⟩ := hv
  unfold NoFloat
  simp only [part_atom_iff hy, ne_comm]

/-- A character of a string inside the value is written by its number. -/
def HasNumbered (v : Value) : Prop :=
  ∃ id text, Part (.str id text) v ∧ ∃ c ∈ text.toList, Text.IsNumbered c

theorem hasNumbered_str {text : String} :
    HasNumbered (str id text) ↔ ∃ c ∈ text.toList, Text.IsNumbered c := by
  unfold HasNumbered
  simp only [part_atom_iff (v := .str id text) rfl, str.injEq]
  grind

/-- What has no parts and is no string has no characters. -/
theorem not_hasNumbered {x : Atom} (hv : v.view = .atom x) (hx : ∀ text, x ≠ .str text) :
    ¬ HasNumbered v := by
  rintro ⟨id, text, hpart, -⟩
  obtain rfl := (part_atom_iff hv).mp hpart
  exact hx text (View.atom.inj hv).symm

theorem hasNumbered_list : HasNumbered (list id items) ↔ ∃ v ∈ items, HasNumbered v := by
  unfold HasNumbered
  simp only [part_list_iff (a := .str _ _) rfl]
  grind

theorem hasNumbered_vector : HasNumbered (vector id items) ↔ ∃ v ∈ items, HasNumbered v := by
  unfold HasNumbered
  simp only [part_vector_iff (a := .str _ _) rfl]
  grind

theorem hasNumbered_map :
    HasNumbered (map id entries) ↔ ∃ e ∈ entries, HasNumbered e.1 ∨ HasNumbered e.2 := by
  unfold HasNumbered
  simp only [part_map_iff (a := .str _ _) rfl]
  grind

variable {order : MapOrder}

/-- The order does not matter to the characters that are written by their numbers. -/
theorem hasNumbered_inOrder : HasNumbered (v.inOrder order) ↔ HasNumbered v := by
  unfold HasNumbered
  simp only [part_inOrder (a := .str _ _) rfl]

theorem NoFloat.inOrder (h : NoFloat v) (order : MapOrder) : NoFloat (v.inOrder order) :=
  fun x hx => h x ((part_inOrder rfl v).mp hx)

/-- The text of a symbol or of a literal is lexed to one token. -/
theorem spells_word {text : String} (h : SymbolWord text.toList) : Spells text [.symbol text] False := by
  refine .of_kinds fun rest hrest => ?_
  rw [kinds_symbol h hrest, String.ofList_toList]

theorem spells_keyword {k : Keyword} (h : KeywordWord k.sym.text.toList) :
    Spells k.text [.keyword k.sym.text false] False := by
  refine .of_kinds fun rest hrest => ?_
  have htext : k.text.toList = ':' :: k.sym.text.toList := by simp [Keyword.text]
  have hkinds := kinds_keyword h false hrest
  rw [String.ofList_toList] at hkinds
  rw [htext]
  exact hkinds

/-- What has no parts and is no string is lexed to itself in any case. -/
theorem spells_plain {s : String} {ts : List Token} {x : Atom} (h : Spells s ts False)
    (hv : v.view = .atom x) (hx : ∀ text, x ≠ .str text) : Spells s ts (HasNumbered v) :=
  h.congr (iff_false_intro (not_hasNumbered hv hx))

/-- A string is lexed to itself, unless a character in it is written by its number. -/
theorem spells_quote (text : String) :
    Spells (Text.quote text) [.str text] (∃ c ∈ text.toList, Text.IsNumbered c) := by
  constructor
  · intro hnone rest _
    exact kinds_quote (fun c hc hnumbered => hnone ⟨c, hc, hnumbered⟩) rest
  · intro hsome rest _
    exact kinds_quote_numbered hsome rest

/-- Items between brackets, with spaces between them. -/
theorem spells_items (h : ∀ v ∈ items, Spells v.text v.tokens (HasNumbered v)) :
    Spells (spaced (texts items)) (itemTokens items) (∃ v ∈ items, HasNumbered v) := by
  rw [texts_eq_map, itemTokens_eq_flatMap]
  exact .intercalate separates_space h

/-- The text of a value that can be written, without floats, is lexed to its tokens, unless a character is
written by its number. -/
theorem spells_text (h : Written v) (hfloat : NoFloat v) : Spells v.text v.tokens (HasNumbered v) := by
  induction h with
  | nil =>
    have hword : SymbolWord "nil".toList := by decide
    exact spells_plain (spells_word hword) rfl (by simp)
  | bool b =>
    have hword : SymbolWord (if b then "true" else "false").toList := by
      cases b <;> decide
    exact spells_plain (spells_word hword) rfl (by simp)
  | int n =>
    exact spells_plain (Spells.of_kinds fun rest => kinds_int n) rfl (by simp)
  | float x =>
    -- Nothing is said of the digits of floats.
    exact absurd .self (hfloat x)
  | str id text => exact (spells_quote text).congr hasNumbered_str
  | symbol hword _ => exact spells_plain (spells_word hword) rfl (by simp)
  | keyword hword _ _ => exact spells_plain (spells_keyword hword) rfl (by simp)
  | list _ ih =>
    have hitems := spells_items fun v hv => ih v hv (noFloat_list.mp hfloat v hv)
    exact (hitems.group .round).congr hasNumbered_list
  | vector _ ih =>
    have hitems := spells_items fun v hv => ih v hv (noFloat_vector.mp hfloat v hv)
    exact (hitems.group .square).congr hasNumbered_vector
  | @map id entries _ _ _ ihkeys ihvalues =>
    have hentry : ∀ e ∈ entries, Spells (e.1.text ++ " " ++ e.2.text) (e.1.tokens ++ e.2.tokens)
        (HasNumbered e.1 ∨ HasNumbered e.2) := by
      intro e he
      obtain ⟨hkey, hvalue⟩ := noFloat_map.mp hfloat e he
      exact (ihkeys e he hkey).append separates_space (ihvalues e he hvalue)
    have hentries := Spells.intercalate separates_comma hentry
    rw [← entryTexts_eq_map, ← entryTokens_eq_flatMap] at hentries
    exact (hentries.group .curly).congr hasNumbered_map

end Value

end SmallLisp
