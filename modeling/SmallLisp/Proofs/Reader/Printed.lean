import Mathlib
import SmallLisp.Proofs.Reader.Recovery
import SmallLisp.Proofs.Reader.Written
import SmallLisp.Proofs.Value.Tokens

/-!
# Reading what has been printed

The tokens of a value that can be written are read to a value that is equal to it (`Reader.readsBack_tokens`). So
a value without floats that the reader has given is read back from its text, whatever the order of its maps,
unless a character of a string inside it is written by its number: such an escape is not read
(`printed_readsBack_iff`).
-/

namespace SmallLisp

namespace Reader

variable {here : Site} {u u' : World} {v : Value} {vs items : List Value}
  {entries : List (Value × Value)} {t : Token} {ts : List Token}

/-! ## Tokens -/

/-- Where keywords stand under their names, the tokens are read to a value that is equal to this one, whatever is
open around them and whatever follows them. -/
def ReadsBack (here : Site) (ts : List Token) (v : Value) : Prop :=
  ∀ u : World, u.Faithful → ∃ x u', u'.Faithful ∧ x.equal v = true ∧ ∀ frames rest,
    readFrom u here frames (lexemesOf ts ++ rest) = resume here rest (supply u' x frames)

/-- A token that stands for a value alone. -/
theorem readsBack_token (h : ∀ u : World, u.Faithful → ∃ x u', u'.Faithful ∧ x.equal v = true ∧
    ∀ frames, step u here frames t = supply u' x frames) : ReadsBack here [t] v := by
  intro u hu
  obtain ⟨x, u', hu', hequal, hstep⟩ := h u hu
  refine ⟨x, u', hu', hequal, fun frames rest => ?_⟩
  rw [lexemesOf_cons, lexemesOf_nil, List.cons_append, List.nil_append, readFrom_token, hstep]

/-- A symbol token stands for the value of its text. -/
theorem readsBack_symbol {text : String} (h : Value.ofSymbolText text = v) :
    ReadsBack here [.symbol text] v := by
  refine readsBack_token fun u hu => ⟨v, u, hu, Value.equal_self v, fun frames => ?_⟩
  show supply u (Value.ofSymbolText text) frames = _
  rw [h]

/-- A keyword token stands for the keyword that is found for it. -/
theorem step_keyword {k : Keyword} {text : String} {auto : Bool}
    (h : u.readKeyword here (Symbol.parse text) auto = (.ok k, u')) (frames : List Frame) :
    step u here frames (.keyword text auto) = supply u' (.keyword k) frames := by
  simp only [step, h]

/-- A keyword with its namespace part is the one of its name. -/
theorem readsBack_keyword {k : Keyword} (hread : Symbol.parse k.sym.text = k.sym)
    (hresolved : k.resolved = true) :
    ReadsBack here [.keyword k.sym.text false] (.keyword k) := by
  refine readsBack_token fun u hu => ?_
  obtain ⟨hsym, hfinal⟩ := hu.internKeyword here.registry k.sym
  refine ⟨.keyword (u.internKeyword here.registry k.sym).1, _,
    hu.glanced (.internKeyword u here.registry k.sym), ?_, fun frames => ?_⟩
  · simp [Value.equal, hsym, hfinal, hresolved]
  · exact step_keyword (hread.symm ▸ rfl) frames

/-- The tokens of values are read one after the other inside a bracket. -/
theorem readsBack_items (h : ∀ v ∈ vs, ReadsBack here v.tokens v) (hu : u.Faithful) :
    ∃ xs u', u'.Faithful ∧ List.Forall₂ (Value.equal · · = true) xs vs ∧ ∀ b done frames rest,
      readFrom u here (.group b done :: frames) (lexemesOf (vs.flatMap Value.tokens) ++ rest) =
        readFrom u' here (.group b (xs.reverse ++ done) :: frames) rest := by
  induction vs generalizing u with
  | nil => exact ⟨[], u, hu, .nil, fun _ _ _ _ => rfl⟩
  | cons v vs ih =>
    obtain ⟨hv, hvs⟩ := List.forall_mem_cons.mp h
    obtain ⟨x, u₁, hu₁, hx, hfirst⟩ := hv u hu
    obtain ⟨xs, u', hu', hxs, hrest⟩ := ih hvs hu₁
    refine ⟨x :: xs, u', hu', .cons hx hxs, fun b done frames rest => ?_⟩
    rw [List.flatMap_cons, lexemesOf_append, List.append_assoc, hfirst]
    -- The value has become one more item.
    show readFrom u₁ here (.group b (x :: done) :: frames) _ = _
    rw [hrest, List.reverse_cons, List.append_assoc]
    rfl

/-- A collection is read back if closing its bracket makes it of its items. -/
theorem readsBack_group (b : Bracket) (h : ∀ v ∈ vs, ReadsBack here v.tokens v)
    (hclose : ∀ xs (u : World), List.Forall₂ (Value.equal · · = true) xs vs → u.Faithful →
      ∃ x u', u'.Faithful ∧ x.equal v = true ∧ ∀ frames, close u b xs frames = supply u' x frames) :
    ReadsBack here (.opening b :: (vs.flatMap Value.tokens ++ [.closing b])) v := by
  intro u hu
  obtain ⟨xs, u₁, hu₁, hxs, hitems⟩ := readsBack_items h hu
  obtain ⟨x, u', hu', hequal, hx⟩ := hclose xs u₁ hxs hu₁
  refine ⟨x, u', hu', hequal, fun frames rest => ?_⟩
  rw [lexemesOf_cons, lexemesOf_append, List.cons_append, List.append_assoc, readFrom_token]
  show readFrom u here (.group b [] :: frames) _ = _
  rw [hitems, lexemesOf_cons, lexemesOf_nil, List.cons_append, List.nil_append, readFrom_token,
    List.append_nil, ← hx]
  simp [step]

/-- Keys and values in turn are paired up again. -/
theorem pairUp_of_forall₂ {xs : List Value}
    (h : List.Forall₂ (Value.equal · · = true) xs (entries.flatMap fun e => [e.1, e.2])) :
    xs.length % 2 = 0 ∧ List.Forall₂ Value.EntryEqual (Value.pairUp xs) entries := by
  induction entries generalizing xs with
  | nil =>
    cases h
    exact ⟨rfl, .nil⟩
  | cons e entries ih =>
    obtain _ | ⟨hkey, _ | ⟨hvalue, hrest⟩⟩ := h
    obtain ⟨heven, hpairs⟩ := ih hrest
    refine ⟨?_, .cons ⟨hkey, hvalue⟩ hpairs⟩
    rw [List.length_cons, List.length_cons]
    omega

/-- What can be written is read back from its tokens. -/
theorem readsBack_tokens (h : v.Written) : ReadsBack here v.tokens v := by
  induction h with
  | nil => exact readsBack_symbol (by simp [Value.ofSymbolText])
  | bool b => exact readsBack_symbol (by cases b <;> simp [Value.ofSymbolText])
  | int n => exact readsBack_token fun u hu => ⟨_, u, hu, Value.equal_self _, fun _ => rfl⟩
  | float x => exact readsBack_token fun u hu => ⟨_, u, hu, Value.equal_self _, fun _ => rfl⟩
  | str id text =>
    refine readsBack_token fun u hu => ⟨.str u.newObject.1 text, u.newObject.2, hu, ?_, fun _ => rfl⟩
    simp [Value.equal]
  | symbol _ hread => exact readsBack_symbol hread
  | keyword _ hread hresolved => exact readsBack_keyword hread hresolved
  | @list id items _ ih =>
    rw [Value.tokens, Value.itemTokens_eq_flatMap]
    refine readsBack_group .round ih fun xs u hxs hu =>
      ⟨.list u.newObject.1 xs, u.newObject.2, hu, ?_, fun _ => rfl⟩
    rw [Value.equal]
    exact Value.equalItems_iff_forall₂.mpr hxs
  | @vector id items _ ih =>
    rw [Value.tokens, Value.itemTokens_eq_flatMap]
    refine readsBack_group .square ih fun xs u hxs hu =>
      ⟨.vector u.newObject.1 xs, u.newObject.2, hu, ?_, fun _ => rfl⟩
    rw [Value.equal]
    exact Value.equalItems_iff_forall₂.mpr hxs
  | @map id entries hdistinct _ _ ihkeys ihvalues =>
    have htokens : Value.entryTokens entries =
        (entries.flatMap fun e => [e.1, e.2]).flatMap Value.tokens := by
      rw [Value.entryTokens_eq_flatMap, List.flatMap_assoc]
      simp
    have hsides : ∀ x ∈ entries.flatMap (fun e => [e.1, e.2]), ReadsBack here x.tokens x := by
      intro x hx
      obtain ⟨e, he, hside⟩ := List.mem_flatMap.mp hx
      obtain rfl | hside := List.mem_cons.mp hside
      · exact ihkeys e he
      · obtain rfl := List.mem_singleton.mp hside
        exact ihvalues e he
    rw [Value.tokens, htokens]
    refine readsBack_group .curly hsides fun xs u hxs hu => ?_
    obtain ⟨heven, hpairs⟩ := pairUp_of_forall₂ hxs
    -- The keys that are read are different, as those of the map are, so that no pair replaces another.
    have hentries := Value.entriesOf_eq_self (hdistinct.congr hpairs)
    refine ⟨.map u.newObject.1 (Value.pairUp xs), u.newObject.2, hu, ?_, fun frames => ?_⟩
    · exact Value.equal_map_of_perm _ _ (.refl _) hpairs
    · unfold close
      dsimp only
      rw [if_pos heven, hentries]

/-! ## Texts -/

theorem endsWord_nil : EndsWord [] := nofun

/-- The text of a value is read back if it is lexed to the tokens of the value. -/
theorem results_text (h : v.Written) (hfloat : v.NoFloat) (hnumbered : ¬ v.HasNumbered)
    (hu : u.Faithful) : ∃ x, (results u here v.text).1 = [.ok x] ∧ x.equal v = true := by
  have hkinds := (Value.spells_text h hfloat).whole hnumbered [] endsWord_nil
  rw [List.append_nil, kinds_nil, List.append_nil, ← tokenize_eq_ok_iff_kinds] at hkinds
  have hback : ReadsBack here v.tokens v := readsBack_tokens h
  obtain ⟨x, u', -, hequal, hread⟩ := hback u hu
  have hform : readFrom u here [] (lexemesOf v.tokens ++ []) = ⟨some (.ok x), [], u'⟩ := hread [] []
  rw [List.append_nil] at hform
  refine ⟨x, ?_, hequal⟩
  rw [results_eq hkinds]
  cases htokens : v.tokens with
  | nil =>
    rw [htokens] at hform
    cases hform
  | cons t ts =>
    rw [htokens] at hform
    rw [List.length_cons, resultsUpTo_of_read hform, resultsUpTo_nil]

/-- The text of a value is not read to values alone if it has a lexical fault. -/
theorem results_text_ne (h : v.Written) (hfloat : v.NoFloat) (hnumbered : v.HasNumbered) (x : Value) :
    (results u here v.text).1 ≠ [.ok x] := by
  intro hresults
  have hfault := (Value.spells_text h hfloat).faulty hnumbered [] endsWord_nil
  rw [List.append_nil] at hfault
  have hvalues : ∀ r ∈ (results u here v.text).1, ∃ v, r = .ok v := by
    rw [hresults]
    exact List.forall_mem_singleton.mpr ⟨x, rfl⟩
  obtain ⟨k, hforms⟩ := forms_of_results hvalues (Nat.le_refl _)
  obtain ⟨t, ht⟩ := Shape.ok_of_after hforms.after hfault
  cases ht

end Reader

variable {w u : World} {here there : Site} {n : Namespace} {text : String} {v : Value}

/-- A value without floats that the reader has given, in any world where the namespace of the running thread has
a readable name, is read back from its text, with its maps in any order, just if no character of a string
inside it is written by its number. -/
theorem printed_readsBack_iff (hw : Reachable w) (hu : Reachable u)
    (hn : (w.currentNamespace here).1 = .ok n) (hname : ReadableName n.name)
    (hv : .ok v ∈ (Reader.results w here text).1) (hfloat : v.NoFloat) (order : Value.MapOrder) :
    (∃ x, (Reader.results u there (v.inOrder order).text).1 = [.ok x] ∧ x.equal v = true) ↔
      ¬ v.HasNumbered := by
  have hready : w.Ready here n.name := ⟨reachable_faithful hw, n, hn, rfl⟩
  have hwritten : (v.inOrder order).Written := (Reader.written_of_results hready hname hv).inOrder order
  have hnofloat : (v.inOrder order).NoFloat := hfloat.inOrder order
  have hsame : (v.inOrder order).HasNumbered ↔ v.HasNumbered := Value.hasNumbered_inOrder
  rw [← hsame]
  constructor
  · rintro ⟨x, hresults, -⟩ hnumbered
    exact Reader.results_text_ne hwritten hnofloat hnumbered x hresults
  · intro hnumbered
    have hread : ∃ x, (Reader.results u there (v.inOrder order).text).1 = [.ok x] ∧
        x.equal (v.inOrder order) = true :=
      Reader.results_text hwritten hnofloat hnumbered (reachable_faithful hu)
    obtain ⟨x, hresults, hequal⟩ := hread
    exact ⟨x, hresults, Value.equal_trans hequal (Value.equal_inOrder v)⟩

/-- A map with a string in its escapes, a keyword of two colons, a quoted symbol and another map inside it: it is
read in a new registry, and read back with its entries the other way round in the world that reading has left. -/
theorem printed_readsBack_reversed :
    let here : Site := ⟨0, 0⟩
    let w := World.empty.after (.create 0 100)
    let text := "\x7b::k ['a/b \"\\t\\\"\" -1] {true nil} (:x)\x7d"
    let u := w.after (.read here (lex text))
    let v : Value := .map 5 [
      (.keyword ⟨0, ⟨"clojure.core", "k"⟩, true⟩,
        .vector 2 [.list 0 [.symbol quoteSymbol, .symbol ⟨"a", "b"⟩], .str 1 "\t\"", .int (-1)]),
      (.map 3 [(.bool true, .nil)], .list 4 [.keyword ⟨0, ⟨"", "x"⟩, true⟩])]
    let order : Value.MapOrder := ⟨fun _ entries => entries.reverse, fun _ => List.reverse_perm⟩
    Reachable w ∧ Reachable u ∧ (w.currentNamespace here).1 = .ok ⟨0, "clojure.core"⟩ ∧
      ReadableName "clojure.core" ∧ .ok v ∈ (Reader.results w here text).1 ∧ v.NoFloat ∧
        ((∃ x, (Reader.results u here (v.inOrder order).text).1 = [.ok x] ∧ x.equal v = true) ↔
          ¬ v.HasNumbered) := by
  have hn : ((World.empty.after (.create 0 100)).currentNamespace ⟨0, 0⟩).1 =
      .ok ⟨0, "clojure.core"⟩ := by cbv
  have hresults : (Reader.results (World.empty.after (.create 0 100)) ⟨0, 0⟩
      "\x7b::k ['a/b \"\\t\\\"\" -1] {true nil} (:x)\x7d").1 = [.ok (.map 5 [
        (.keyword ⟨0, ⟨"clojure.core", "k"⟩, true⟩,
          .vector 2 [.list 0 [.symbol quoteSymbol, .symbol ⟨"a", "b"⟩], .str 1 "\t\"", .int (-1)]),
        (.map 3 [(.bool true, .nil)], .list 4 [.keyword ⟨0, ⟨"", "x"⟩, true⟩])])] := by cbv
  intro here w text u v order
  have hw : Reachable w := Reachable.empty.after _
  have hu : Reachable u := hw.after _
  have hname : ReadableName "clojure.core" := ⟨by decide, by decide⟩
  have hv : .ok v ∈ (Reader.results w here text).1 := by
    rw [hresults]
    exact List.mem_singleton_self _
  have hfloat : v.NoFloat := by
    simp [v, Value.noFloat_map, Value.noFloat_vector, Value.noFloat_list, Value.noFloat_plain,
      Value.view]
  exact ⟨hw, hu, hn, hname, hv, hfloat, printed_readsBack_iff hw hu hn hname hv hfloat order⟩

end SmallLisp
