import Mathlib.Data.List.TakeDrop
import SmallLisp.Proofs.Token.Spelling
import SmallLisp.Proofs.Value.Parts
import SmallLisp.Reader

/-!
# Values that can be written

The values that reading can give (`Value.Written`): no functions, namespaces and vars, symbols and keywords
whose text is a word that stands for them again (`Symbol.parse_text`), and maps with different keys.
-/

namespace SmallLisp

/-! ## Names -/

namespace Symbol

variable {ns name text : String}

/-- A text with a namespace part falls apart at its first slash. -/
theorem splitSlash_append {before after : List Char} (hbefore : before ≠ []) (hslash : '/' ∉ before)
    (hafter : after ≠ []) : splitSlash (before ++ '/' :: after) = some (before, after) := by
  have hall : ∀ c ∈ before, (c != '/') = true := by
    intro c hc
    simp only [bne_iff_ne]
    rintro rfl
    exact hslash hc
  obtain ⟨c, cs, rfl⟩ := List.exists_cons_of_ne_nil hbefore
  obtain ⟨d, ds, rfl⟩ := List.exists_cons_of_ne_nil hafter
  unfold splitSlash
  rw [List.span_eq_takeWhile_dropWhile, List.takeWhile_append_of_pos hall,
    List.dropWhile_append_of_pos hall]
  simp

/-- Where a text falls apart, its parts are joined by the slash. -/
theorem eq_append_of_splitSlash {cs before after : List Char}
    (h : splitSlash cs = some (before, after)) :
    cs = before ++ '/' :: after ∧ before ≠ [] := by
  unfold splitSlash at h
  rw [List.span_eq_takeWhile_dropWhile] at h
  have hjoined := List.takeWhile_append_dropWhile (p := (· != '/')) (l := cs)
  have hhead := List.head?_dropWhile_not (· != '/') cs
  split at h
  · rename_i c cs₁ x d cs₂ heq
    cases h
    obtain ⟨hbefore, hrest⟩ := Prod.mk.inj heq
    rw [hbefore, hrest] at hjoined
    rw [hrest] at hhead
    obtain rfl : x = '/' := by simpa using hhead
    exact ⟨hjoined.symm, List.cons_ne_nil _ _⟩
  · cases h

/-- A symbol that a text stands for is written as the text. -/
theorem text_parse (text : String) : (parse text).text = text := by
  unfold parse
  cases hsplit : splitSlash text.toList with
  | none => exact text_bare text
  | some parts =>
    obtain ⟨before, after⟩ := parts
    obtain ⟨heq, hbefore⟩ := eq_append_of_splitSlash hsplit
    have hns : String.ofList before ≠ "" := by simpa using hbefore
    unfold Symbol.text
    rw [if_neg hns, ← String.toList_inj, heq]
    simp

/-- A text without a namespace part is a name as a whole. -/
theorem name_parse_of_not_isQualified (h : (parse text).isQualified = false) :
    (parse text).name = text := by
  have hns : (parse text).ns = "" := by simpa [isQualified] using h
  have htext := text_parse text
  rwa [Symbol.text, if_pos hns] at htext

/-- A name under a readable namespace part stands for itself, slashes and all. -/
theorem parse_text_qualified (hns : ns ≠ "") (hslash : '/' ∉ ns.toList) (hname : name ≠ "") :
    parse (Symbol.text ⟨ns, name⟩) = ⟨ns, name⟩ := by
  have htext : (Symbol.text ⟨ns, name⟩).toList = ns.toList ++ '/' :: name.toList := by
    simp [Symbol.text, hns]
  have hsplit : splitSlash (ns.toList ++ '/' :: name.toList) = some (ns.toList, name.toList) :=
    splitSlash_append (by simpa using hns) hslash (by simpa using hname)
  unfold parse
  rw [htext, hsplit]
  simp

end Symbol

/-- A name that the reader can read as a namespace part. -/
structure ReadableName (name : String) : Prop extends KeywordWord name.toList where
  /-- It has no slash, which would end it. -/
  no_slash : '/' ∉ name.toList

namespace Value

/-! ## Values -/

/-- What reading can give. -/
inductive Written : Value → Prop
  | nil : Written .nil
  | bool (b : Bool) : Written (.bool b)
  | int (n : Int64) : Written (.int n)
  | float (x : Float) : Written (.float x)
  | str (id : ObjectId) (text : String) : Written (.str id text)
  /-- The text of a symbol is a word for it, and for none of the literals. -/
  | symbol {s : Symbol} (hword : SymbolWord s.text.toList)
    (hread : ofSymbolText s.text = .symbol s) : Written (.symbol s)
  /-- The text of a keyword is a word for it. -/
  | keyword {k : Keyword} (hword : KeywordWord k.sym.text.toList)
    (hread : Symbol.parse k.sym.text = k.sym) (hresolved : k.resolved = true) : Written (.keyword k)
  | list {id : ObjectId} {items : List Value} (h : ∀ v ∈ items, Written v) : Written (.list id items)
  | vector {id : ObjectId} {items : List Value} (h : ∀ v ∈ items, Written v) :
    Written (.vector id items)
  /-- The keys of a map are different. -/
  | map {id : ObjectId} {entries : List (Value × Value)} (hdistinct : DistinctKeys entries)
    (hkeys : ∀ e ∈ entries, Written e.1) (hvalues : ∀ e ∈ entries, Written e.2) :
    Written (.map id entries)

/-- A word that is lexed to a symbol stands for a literal or for a symbol. -/
theorem written_ofSymbolText {text : String} (h : SymbolWord text.toList) :
    Written (ofSymbolText text) := by
  unfold ofSymbolText
  split
  · exact .nil
  · rename_i hnil
    split
    · exact .bool true
    · rename_i htrue
      split
      · exact .bool false
      · rename_i hfalse
        refine .symbol ?_ ?_
        · rw [Symbol.text_parse]
          exact h
        · rw [Symbol.text_parse, ofSymbolText, if_neg hnil, if_neg htrue, if_neg hfalse]

/-- The quote mark stands for the symbol `quote`. -/
theorem written_quoteSymbol : Written (.symbol quoteSymbol) := by
  have hword : SymbolWord "quote".toList := by decide
  have hread : ofSymbolText "quote" = .symbol quoteSymbol := rfl
  exact hread ▸ written_ofSymbolText hword

/-- A keyword of one colon has the name that it is written with. -/
theorem written_keyword {k : Keyword} {text : String} (htext : KeywordWord text.toList)
    (hsym : k.sym = Symbol.parse text) (hresolved : k.resolved = true) : Written (.keyword k) := by
  refine .keyword ?_ ?_ hresolved
  · rw [hsym, Symbol.text_parse]
    exact htext
  · rw [hsym, Symbol.text_parse]

/-- A keyword of two colons gets a namespace part that can be read. -/
theorem written_keyword_qualified {k : Keyword} {ns name : String} (hns : ReadableName ns)
    (hname : KeywordWord name.toList) (hsym : k.sym = ⟨ns, name⟩) (hresolved : k.resolved = true) :
    Written (.keyword k) := by
  have hns_ne : ns ≠ "" := by simpa using hns.ne_nil
  have hname_ne : name ≠ "" := by simpa using hname.ne_nil
  have htext : (Symbol.text ⟨ns, name⟩).toList = ns.toList ++ '/' :: name.toList := by
    simp [Symbol.text, hns_ne]
  refine .keyword ?_ ?_ hresolved
  · rw [hsym, htext]
    refine ⟨⟨by simp, fun c hc => ?_⟩, ?_⟩
    · obtain hc | hc := List.mem_append.mp hc
      · exact hns.inside c hc
      · obtain rfl | hc := List.mem_cons.mp hc
        · decide
        · exact hname.inside c hc
    · rw [List.head?_append_of_ne_nil _ hns.ne_nil]
      exact hns.head_ne
  · rw [hsym, Symbol.parse_text_qualified hns_ne hns.no_slash hname_ne]

variable {v : Value}

/-- A value in another order can be written too. -/
theorem Written.inOrder (h : Written v) (order : MapOrder) : Written (v.inOrder order) := by
  induction h with
  | nil => exact .nil
  | bool b => exact .bool b
  | int n => exact .int n
  | float x => exact .float x
  | str id text => exact .str id text
  | symbol hword hread => exact .symbol hword hread
  | keyword hword hread hresolved => exact .keyword hword hread hresolved
  | list _ ih =>
    rw [Value.inOrder, itemsInOrder_eq_map]
    exact .list (List.forall_mem_map.mpr ih)
  | vector _ ih =>
    rw [Value.inOrder, itemsInOrder_eq_map]
    exact .vector (List.forall_mem_map.mpr ih)
  | @map id entries hdistinct _ _ ihkeys ihvalues =>
    have hmem : ∀ e ∈ order.arrange id (entriesInOrder order entries), ∃ d ∈ entries,
        (d.1.inOrder order, d.2.inOrder order) = e := by
      intro e he
      rw [(order.perm id _).mem_iff, entriesInOrder_eq_map] at he
      exact List.mem_map.mp he
    rw [Value.inOrder]
    refine .map hdistinct.inOrder (fun e he => ?_) (fun e he => ?_)
    · obtain ⟨d, hd, rfl⟩ := hmem e he
      exact ihkeys d hd
    · obtain ⟨d, hd, rfl⟩ := hmem e he
      exact ihvalues d hd

end Value

end SmallLisp
