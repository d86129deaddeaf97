import SmallLisp.Proofs.Reader.Derivation
import SmallLisp.Proofs.Reader.Recovery
import SmallLisp.Proofs.Reader.Written

/-!
# The reader accepts its grammar

Where the running thread has a current namespace, the reader takes exactly the proper forms: the tokens of one
are read to its value, whatever is open around them and whatever follows (`Reader.reads_form`), and tokens that
begin with none end in an error (`Reader.beginsForm_or_fails`). So the next form is read just if the tokens
begin with one, and then it is the only one that they begin with (`Reader.next_accepts_forms`).
-/

namespace SmallLisp

variable {here : Site} {name : String} {w : World} {f : Form} {fs : List Form} {t : Token}
  {ts : List Token} {frames : List Frame}

/-! ## Values -/

theorem Form.length_readAll (here : Site) (name : String) (w : World) (fs : List Form) :
    (Form.readAll here name w fs).1.length = fs.length := by
  induction fs generalizing w with
  | nil => rfl
  | cons f fs ih =>
    rw [Form.readAll, List.length_cons]
    exact congrArg (· + 1) (ih _)

/-- A token by itself is read to what it denotes. -/
theorem Token.denotes_read (hw : w.Ready here name) (hatom : t.isAtom = true) (halias : ¬ t.IsAliased) :
    t.Denotes name (t.read here name w).1 ∧ (t.read here name w).2.Ready here name := by
  cases t with
  | opening b => cases hatom
  | closing b => cases hatom
  | quote => cases hatom
  | int n => exact ⟨.int n, hw⟩
  | float x => exact ⟨.float x, hw⟩
  | str text => exact ⟨.str _ text, hw.glanced (.newObject w)⟩
  | symbol text =>
    refine ⟨?_, hw⟩
    show Token.Denotes name _ (Value.ofSymbolText text)
    unfold Value.ofSymbolText
    split_ifs with hnil htrue hfalse
    · exact hnil ▸ .nil
    · exact htrue ▸ .true
    · exact hfalse ▸ .false
    · exact .symbol (by simp [hnil, htrue, hfalse])
  | keyword text auto =>
    cases auto with
    | false =>
      exact ⟨.keyword (hw.faithful.internKeyword here.registry _).1, hw.internKeyword _⟩
    | true =>
      have hcurrent := hw.currentNamespace
      exact ⟨.auto (hcurrent.faithful.internKeyword here.registry _).1, hcurrent.internKeyword _⟩

/-- A form is read to what it denotes. -/
theorem Form.denotes_read (hf : f.Proper) (hw : w.Ready here name) :
    f.Denotes name (f.read here name w).1 ∧ (f.read here name w).2.Ready here name := by
  have row : ∀ {fs : List Form} {w : World}, (∀ f ∈ fs, ∀ {w : World}, w.Ready here name →
      f.Denotes name (f.read here name w).1 ∧ (f.read here name w).2.Ready here name) →
      w.Ready here name →
      List.Forall₂ (Form.Denotes name) fs (Form.readAll here name w fs).1 ∧
        (Form.readAll here name w fs).2.Ready here name := by
    intro fs
    induction fs with
    | nil => exact fun _ hw => ⟨.nil, hw⟩
    | cons f fs ih =>
      intro w h hw
      obtain ⟨hfirst, hothers⟩ := List.forall_mem_cons.mp h
      obtain ⟨hv, hw₁⟩ := hfirst hw
      obtain ⟨hvs, hw₂⟩ := ih hothers hw₁
      exact ⟨.cons hv hvs, hw₂⟩
  induction hf generalizing w with
  | atom halias => exact (Token.denotes_read hw ‹_› halias).imp_left .atom
  | quoted _ ih =>
    obtain ⟨hv, hw₁⟩ := ih hw
    exact ⟨.quoted _ hv, hw₁.glanced (.newObject _)⟩
  | @group b fs _ _ ih =>
    obtain ⟨hvs, hw₁⟩ := row ih hw
    refine ⟨?_, hw₁.glanced (.newObject _)⟩
    cases b with
    | round => exact .list _ hvs
    | square => exact .vector _ hvs
    | curly => exact .map _ hvs (Value.lastWins_entriesOf _)

namespace Reader

/-! ## Tokens that begin with a form -/

/-- A token by itself is handed to what is open. -/
theorem step_atom (hatom : t.isAtom = true) (halias : ¬ t.IsAliased) (hw : w.InNamespace here name)
    (frames : List Frame) :
    step w here frames t = supply (t.read here name w).2 (t.read here name w).1 frames := by
  cases t with
  | opening b => cases hatom
  | closing b => cases hatom
  | quote => cases hatom
  | keyword text auto =>
    cases auto with
    | false => rfl
    | true =>
      have hqualified : (Symbol.parse text).isQualified = false := Bool.eq_false_iff.mpr halias
      obtain ⟨n, hn, rfl⟩ := hw
      have hsymbol : (Symbol.parse text).inNamespace n.name = ⟨n.name, text⟩ := by
        unfold Symbol.inNamespace
        rw [Symbol.name_parse_of_not_isQualified hqualified]
      have hread : w.readKeyword here (Symbol.parse text) true =
          (.ok ((w.currentNamespace here).2.internKeyword here.registry ⟨n.name, text⟩).1,
            ((w.currentNamespace here).2.internKeyword here.registry ⟨n.name, text⟩).2) := by
        unfold World.readKeyword
        rw [hqualified, ← hsymbol]
        generalize w.currentNamespace here = current at hn ⊢
        obtain ⟨_, u⟩ := current
        dsimp only at hn
        subst hn
        rfl
      simp only [step, hread]
      rfl
  | _ => rfl

theorem inNamespace_token (hw : w.InNamespace here name) (t : Token) :
    (t.read here name w).2.InNamespace here name := by
  cases t with
  | str text => exact hw.glanced (.newObject w)
  | keyword text auto =>
    cases auto with
    | false => exact hw.glanced (.internKeyword w _ _)
    | true => exact hw.currentNamespace.glanced (.internKeyword _ _ _)
  | _ => exact hw

/-- A collection whose bracket is closed is handed to what is open. -/
theorem close_even {vs : List Value} {b : Bracket} (heven : b = .curly → vs.length % 2 = 0) (w : World)
    (frames : List Frame) :
    close w b vs frames = supply w.newObject.2 (b.collect w.newObject.1 vs) frames := by
  cases b with
  | round => rfl
  | square => rfl
  | curly =>
    unfold close
    dsimp only
    rw [if_pos (heven rfl)]
    rfl

/-- The tokens of a form are read to its value, whatever is open around them and whatever follows them. -/
def ReadsForm (here : Site) (name : String) (f : Form) : Prop :=
  ∀ {w : World}, w.InNamespace here name → (f.read here name w).2.InNamespace here name ∧
    ∀ frames rest, readFrom w here frames (lexemesOf f.tokens ++ rest) =
      resume here rest (supply (f.read here name w).2 (f.read here name w).1 frames)

/-- Forms inside a bracket are read one after the other. -/
theorem reads_forms (h : ∀ f ∈ fs, ReadsForm here name f) (hw : w.InNamespace here name) :
    (Form.readAll here name w fs).2.InNamespace here name ∧ ∀ b items frames rest,
      readFrom w here (.group b items :: frames) (lexemesOf (Form.tokensAll fs) ++ rest) =
        readFrom (Form.readAll here name w fs).2 here
          (.group b ((Form.readAll here name w fs).1.reverse ++ items) :: frames) rest := by
  induction fs generalizing w with
  | nil => exact ⟨hw, fun _ _ _ _ => rfl⟩
  | cons f fs ih =>
    obtain ⟨hf, hfs⟩ := List.forall_mem_cons.mp h
    obtain ⟨hw₁, hfirst⟩ := hf hw
    obtain ⟨hw₂, hrest⟩ := ih hfs hw₁
    refine ⟨hw₂, fun b items frames rest => ?_⟩
    rw [Form.tokensAll, lexemesOf_append, List.append_assoc, hfirst]
    -- The value has become one more item.
    show readFrom _ here (.group b (_ :: items) :: frames) _ = _
    rw [hrest, Form.readAll, List.reverse_cons, List.append_assoc]
    rfl

theorem reads_form (hf : f.Proper) : ReadsForm here name f := by
  induction hf with
  | @atom t hatom halias =>
    intro w hw
    refine ⟨inNamespace_token hw t, fun frames rest => ?_⟩
    rw [Form.tokens, lexemesOf_cons, lexemesOf_nil, List.cons_append, List.nil_append, readFrom_token,
      step_atom hatom halias hw]
    rfl
  | quoted _ ih =>
    intro w hw
    obtain ⟨hw₁, hread⟩ := ih hw
    refine ⟨hw₁.glanced (.newObject _), fun frames rest => ?_⟩
    rw [Form.tokens, lexemesOf_cons, List.cons_append, readFrom_token]
    exact hread (.quote :: frames) rest
  | @group b fs _ heven ih =>
    intro w hw
    obtain ⟨hw₁, hitems⟩ := reads_forms ih hw
    refine ⟨hw₁.glanced (.newObject _), fun frames rest => ?_⟩
    have hlength : b = .curly → (Form.readAll here name w fs).1.length % 2 = 0 := by
      rw [Form.length_readAll]
      exact heven
    rw [Form.tokens, lexemesOf_cons, lexemesOf_append, List.cons_append, List.append_assoc, readFrom_token]
    show readFrom w here (.group b [] :: frames) _ = _
    rw [hitems, lexemesOf_cons, lexemesOf_nil, List.cons_append, List.nil_append, readFrom_token,
      List.append_nil]
    simp only [step, if_pos, List.reverse_reverse]
    rw [close_even hlength, Form.read]

/-! ## Tokens that begin with no form -/

/-- Reading these tokens inside the frames ends in an error. -/
def Fails (here : Site) (name : String) (frames : List Frame) (ts : List Token) : Prop :=
  ∀ w : World, w.InNamespace here name →
    ∃ e, (readFrom w here frames (lexemesOf ts)).result = some (.error e)

/-- A token that is refused ends the form. -/
theorem fails_of_refused
    (h : ∀ w : World, w.InNamespace here name → ∃ e d w', step w here frames t = (.refused e d, w')) :
    Fails here name frames (t :: ts) := by
  intro w hw
  obtain ⟨e, d, w', hstep⟩ := h w hw
  refine ⟨e, ?_⟩
  rw [lexemesOf_cons, readFrom_token, hstep]
  rfl

/-- What fails inside what a token opens fails behind that token. -/
theorem Fails.behind {frames' : List Frame} (h : Fails here name frames' ts)
    (hstep : ∀ w, step w here frames t = (.pending frames', w)) : Fails here name frames (t :: ts) := by
  intro w hw
  rw [lexemesOf_cons, readFrom_token, hstep]
  exact h w hw

/-- The tokens begin with a proper form. -/
def BeginsForm (ts : List Token) : Prop := ∃ (f : Form) (rest : List Token), f.Proper ∧ ts = f.tokens ++ rest

/-- The tokens begin with proper forms and the bracket that closes them. -/
def BeginsGroup (b : Bracket) (ts : List Token) : Prop :=
  ∃ (fs : List Form) (rest : List Token), (∀ f ∈ fs, f.Proper) ∧
    ts = Form.tokensAll fs ++ .closing b :: rest

/-- What tokens can begin with. -/
inductive Begins (here : Site) (name : String) : List Token → Prop
  /-- Nothing. -/
  | nil : Begins here name []
  /-- A closing bracket, which may close what is open. -/
  | closing (b : Bracket) (rest : List Token) : Begins here name (.closing b :: rest)
  /-- A form. -/
  | form {ts : List Token} (h : BeginsForm ts) : Begins here name ts
  /-- What is refused wherever it stands. -/
  | failing {ts : List Token} (h : ∀ frames, Fails here name frames ts) : Begins here name ts

/-- Behind an opening bracket there are forms and the closing bracket, or there is an error. -/
theorem beginsGroup_or_fails (h : ∀ us, us.length ≤ ts.length → Begins here name us) (b : Bracket) :
    BeginsGroup b ts ∨ ∀ items frames, Fails here name (.group b items :: frames) ts := by
  induction hn : ts.length using Nat.strongRecOn generalizing ts with
  | ind n ih =>
    -- A form takes at least one token, so fewer are left behind it.
    cases h ts (Nat.le_refl _) with
    | nil => exact .inr fun items frames w hw => ⟨_, rfl⟩
    | closing b' rest =>
      by_cases hb : b' = b
      · exact .inl ⟨[], rest, nofun, by rw [hb]; rfl⟩
      · refine .inr fun items frames => fails_of_refused fun w hw => ?_
        refine ⟨.parse (.unexpectedClosing b'), depth (.group b items :: frames), w, ?_⟩
        simp [step, hb]
    | form hform =>
      obtain ⟨f, rest, hf, rfl⟩ := hform
      obtain ⟨t, us, htokens, -⟩ := f.exists_tokens_cons
      have hlt : rest.length < n := by
        rw [← hn, htokens, List.length_append, List.length_cons]
        omega
      have hless : ∀ us : List Token, us.length ≤ rest.length → Begins here name us := fun us hus =>
        h us (by omega)
      obtain ⟨fs, rest', hfs, rfl⟩ | hfail := ih _ hlt hless rfl
      · refine .inl ⟨f :: fs, rest', List.forall_mem_cons.mpr ⟨hf, hfs⟩, ?_⟩
        rw [Form.tokensAll, List.append_assoc]
      · refine .inr fun items frames w hw => ?_
        obtain ⟨hw₁, hread⟩ := reads_form hf hw
        rw [lexemesOf_append, hread]
        exact hfail _ frames _ hw₁
    | failing hfail => exact .inr fun items frames => hfail _

/-- A keyword of two colons with a namespace part is refused. -/
theorem fails_aliased (halias : t.IsAliased) (frames : List Frame) (ts : List Token) :
    Fails here name frames (t :: ts) := by
  refine fails_of_refused fun w hw => ?_
  cases t with
  | keyword text auto =>
    cases auto with
    | false => exact halias.elim
    | true =>
      have hrefused : w.readKeyword here (Symbol.parse text) true = (.error .aliasedKeyword, w) :=
        readKeyword_aliased halias
      exact ⟨.aliasedKeyword, depth frames, w, by simp only [step, hrefused]⟩
  | _ => exact halias.elim

/-- An odd number of forms makes no map. -/
theorem fails_oddMap (hfs : ∀ f ∈ fs, f.Proper) (hodd : ¬ fs.length % 2 = 0) (frames : List Frame)
    (rest : List Token) :
    Fails here name (.group .curly [] :: frames) (Form.tokensAll fs ++ .closing .curly :: rest) := by
  intro w hw
  obtain ⟨-, hitems⟩ := reads_forms (fun f hf => reads_form (hfs f hf)) hw
  rw [lexemesOf_append, hitems, lexemesOf_cons, readFrom_token]
  simp [step, close, Form.length_readAll, hodd, resume]

/-- Tokens that begin with no form are refused, unless they begin with a closing bracket or there are none. -/
theorem begins (here : Site) (name : String) (ts : List Token) : Begins here name ts := by
  induction hn : ts.length using Nat.strongRecOn generalizing ts with
  | ind n ih =>
    cases ts with
    | nil => exact .nil
    | cons t us =>
      have hlt : us.length < n := by
        rw [← hn]
        exact Nat.lt_succ_self _
      cases hatom : t.isAtom with
      | true =>
        by_cases halias : t.IsAliased
        · exact .failing fun frames => fails_aliased halias frames us
        · exact .form ⟨.atom t hatom, us, .atom halias, rfl⟩
      | false =>
        cases t with
        | closing b => exact .closing b us
        | quote =>
          -- Only a form may stand behind a quote mark: neither a closing bracket nor the end.
          have behind : (∀ frames, Fails here name (.quote :: frames) us) →
              Begins here name (.quote :: us) := fun h =>
            .failing fun frames => (h frames).behind fun _ => rfl
          cases ih _ hlt us rfl with
          | nil => exact behind fun _ _ _ => ⟨_, rfl⟩
          | closing b rest => exact behind fun _ _ _ => ⟨_, rfl⟩
          | form hform =>
            obtain ⟨f, rest, hf, rfl⟩ := hform
            exact .form ⟨.quoted f, rest, .quoted hf, rfl⟩
          | failing hfail => exact behind fun frames => hfail (.quote :: frames)
        | opening b =>
          -- The forms behind the bracket are counted only when it is closed.
          have behind : (∀ frames, Fails here name (.group b [] :: frames) us) →
              Begins here name (.opening b :: us) := fun h =>
            .failing fun frames => (h frames).behind fun _ => rfl
          have hinside : ∀ vs : List Token, vs.length ≤ us.length → Begins here name vs :=
            fun vs hvs => ih _ (by omega) vs rfl
          obtain ⟨fs, rest, hfs, rfl⟩ | hfail := beginsGroup_or_fails hinside b
          · by_cases heven : b = .curly → fs.length % 2 = 0
            · refine .form ⟨.group b fs, rest, .group hfs heven, ?_⟩
              rw [Form.tokens_group_append]
            · obtain ⟨rfl, hodd⟩ := Classical.not_imp.mp heven
              exact behind fun frames => fails_oddMap hfs hodd frames rest
          · exact behind fun frames => hfail [] frames
        | _ => cases hatom

/-- At the top level tokens begin with a form, or there is an error, or there are none. -/
theorem beginsForm_or_fails (here : Site) (name : String) (hne : ts ≠ []) :
    BeginsForm ts ∨ Fails here name [] ts := by
  cases begins here name ts with
  | nil => exact absurd rfl hne
  | closing b rest => exact .inr fun _ _ => ⟨_, rfl⟩
  | form hform => exact .inl hform
  | failing hfail => exact .inr (hfail [])

variable {n : Namespace} {ls : List Lexeme}

/-- What reading the next form gives, whatever the places of the lexemes: nothing if there are none, the form
that the tokens begin with, or an error if they begin with none. -/
theorem next_cases (hn : (w.currentNamespace here).1 = .ok n)
    (hls : ls.map Lexeme.result = ts.map .ok) :
    (ts = [] ∧ (next w here ls).result = none) ∨
      (∃ (f : Form) (rest : List Token), f.Proper ∧ ts = f.tokens ++ rest ∧
        (next w here ls).result = some (.ok (f.read here n.name w).1) ∧
        (next w here ls).rest.map Lexeme.result = rest.map .ok) ∨
      ts ≠ [] ∧ ¬ BeginsForm ts ∧ ∃ e, (next w here ls).result = some (.error e) := by
  have hw : w.InNamespace here n.name := ⟨n, hn, rfl⟩
  obtain ⟨hresult, hrest, -⟩ := readFrom_congr (hls.trans (result_lexemesOf ts).symm) w here []
  unfold next
  rw [hresult, hrest]
  by_cases hne : ts = []
  · subst hne
    exact .inl ⟨rfl, rfl⟩
  · by_cases hform : BeginsForm ts
    · obtain ⟨f, rest, hf, rfl⟩ := hform
      rw [lexemesOf_append, (reads_form hf hw).2]
      exact .inr (.inl ⟨f, rest, hf, rfl, rfl, result_lexemesOf rest⟩)
    · have hfail := (beginsForm_or_fails here n.name hne).resolve_left hform
      exact .inr (.inr ⟨hne, hform, hfail w hw⟩)

/-- Where the running thread has a current namespace and the lexemes left are tokens, a form is read, and
tokens are left behind it, just if the tokens are those of a proper form and then these; they are so in one way
at most. Nothing is read just if there are no tokens, and there is an error in every other case. Where keywords
stand under their names, as in every reachable world, the value that is read is what the form denotes. -/
theorem next_accepts_forms (hn : (w.currentNamespace here).1 = .ok n)
    (hls : ls.map Lexeme.result = ts.map .ok) :
    (∀ v rest, (next w here ls).result = some (.ok v) ∧
        (next w here ls).rest.map Lexeme.result = rest.map .ok ↔
      ∃ f : Form, f.Proper ∧ ts = f.tokens ++ rest ∧ (f.read here n.name w).1 = v) ∧
    (∀ (f f' : Form) (rest rest' : List Token), ts = f.tokens ++ rest → ts = f'.tokens ++ rest' →
      f = f' ∧ rest = rest') ∧
    ((next w here ls).result = none ↔ ts = []) ∧
    ((∃ e, (next w here ls).result = some (.error e)) ↔
      ts ≠ [] ∧ ∀ (f : Form) (rest : List Token), f.Proper → ts ≠ f.tokens ++ rest) ∧
    (w.Faithful → ∀ f : Form, f.Proper → f.Denotes n.name (f.read here n.name w).1) := by
  have hunique : ∀ (f f' : Form) (rest rest' : List Token), ts = f.tokens ++ rest →
      ts = f'.tokens ++ rest' → f = f' ∧ rest = rest' := fun f f' rest rest' h h' =>
    Form.tokens_append_inj (h.symm.trans h')
  have hdenotes : w.Faithful → ∀ f : Form, f.Proper → f.Denotes n.name (f.read here n.name w).1 :=
    fun hw f hf => (Form.denotes_read hf ⟨hw, n, hn, rfl⟩).1
  obtain ⟨hnil, hresult⟩ | ⟨f, rest, hf, hts, hresult, hrest⟩ | ⟨hne, hform, e, hresult⟩ :=
    next_cases hn hls
  · rw [hresult]
    refine ⟨fun v rest => ⟨nofun, ?_⟩, hunique, ⟨fun _ => hnil, fun _ => rfl⟩, ⟨nofun, ?_⟩, hdenotes⟩
    · rintro ⟨f, -, hts, -⟩
      exact absurd (hts.symm.trans hnil) (f.tokens_append_ne_nil rest)
    · rintro ⟨hne, -⟩
      exact absurd hnil hne
  · rw [hresult, hrest]
    refine ⟨fun v rest' => ⟨?_, ?_⟩, hunique, ⟨nofun, ?_⟩, ⟨nofun, ?_⟩, hdenotes⟩
    · rintro ⟨hv, hrest'⟩
      obtain rfl : rest = rest' := (List.map_inj_right fun _ _ => Except.ok.inj).mp hrest'
      exact ⟨f, hf, hts, Except.ok.inj (Option.some.inj hv)⟩
    · rintro ⟨f', -, hts', rfl⟩
      obtain ⟨rfl, rfl⟩ := hunique f f' rest rest' hts hts'
      exact ⟨rfl, rfl⟩
    · intro hnil
      exact absurd (hts.symm.trans hnil) (f.tokens_append_ne_nil rest)
    · rintro ⟨-, hnone⟩
      exact absurd hts (hnone f rest hf)
  · rw [hresult]
    refine ⟨fun v rest => ⟨nofun, ?_⟩, hunique, ⟨nofun, fun hnil => absurd hnil hne⟩,
      ⟨fun _ => ⟨hne, ?_⟩, fun _ => ⟨e, rfl⟩⟩, hdenotes⟩
    · rintro ⟨f, hf, hts, -⟩
      exact absurd ⟨f, rest, hf, hts⟩ hform
    · intro f rest hf hts
      exact hform ⟨f, rest, hf, hts⟩

/-- A map with a key given twice and a quoted keyword of the current namespace, read by a thread that has not
used its registry yet. -/
theorem next_accepts_map :
    let here : Site := ⟨0, 7⟩
    let w := World.empty.after (.create 0 100)
    let text := "\x7b:a 1 :a '::b\x7d )"
    let a : Form := .atom (.keyword "a" false) rfl
    let f : Form := .group .curly [a, .atom (.int 1) rfl, a, .quoted (.atom (.keyword "b" true) rfl)]
    (w.currentNamespace here).1 = .ok ⟨0, "clojure.core"⟩ ∧
      (lex text).map Lexeme.result = (f.tokens ++ [Token.closing .round]).map .ok ∧
      f.Denotes "clojure.core" (f.read here "clojure.core" w).1 ∧
      (next w here (lex text)).result = some (.ok (f.read here "clojure.core" w).1) ∧
        (next w here (lex text)).rest.map Lexeme.result = [.ok (Token.closing .round)] := by
  have hn : ((World.empty.after (.create 0 100)).currentNamespace ⟨0, 7⟩).1 =
      .ok ⟨0, "clojure.core"⟩ := by cbv
  have htokens : (lex "\x7b:a 1 :a '::b\x7d )").map Lexeme.result =
      [.ok (.opening .curly), .ok (.keyword "a" false), .ok (.int 1), .ok (.keyword "a" false), .ok .quote,
        .ok (.keyword "b" true), .ok (.closing .curly), .ok (.closing .round)] := by cbv
  intro here w text a f
  have hls : (lex text).map Lexeme.result = (f.tokens ++ [Token.closing .round]).map .ok := htokens
  have hproper : f.Proper := by
    refine .group (fun g hg => ?_) fun _ => by simp
    simp only [List.mem_cons, List.not_mem_nil, or_false] at hg
    obtain rfl | rfl | rfl | rfl := hg
    · exact .atom fun h => h
    · exact .atom fun h => h
    · exact .atom fun h => h
    · exact .quoted (.atom (show ¬ (Symbol.parse "b").isQualified = true by decide))
  have hw : w.Faithful := reachable_faithful (Reachable.empty.after _)
  obtain ⟨hread, -, -, -, hdenotes⟩ := next_accepts_forms hn hls
  exact ⟨hn, hls, hdenotes hw f hproper, (hread _ [.closing .round]).mpr ⟨f, hproper, rfl, rfl⟩⟩

end Reader

end SmallLisp
