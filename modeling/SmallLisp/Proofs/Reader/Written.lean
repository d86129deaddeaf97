import SmallLisp.Proofs.Reader.Forms
import SmallLisp.Proofs.Session.Keywords
import SmallLisp.Proofs.Value.Written
import SmallLisp.Proofs.World.Interning

/-!
# What reading gives

Where keywords stand under their names, and the running thread is in a namespace whose name can be read as a
namespace part, reading gives values that can be written (`Reader.written_of_results`). A thread that has not
used its registry before is in its first namespace as soon as it asks (`World.InNamespace`).
-/

namespace SmallLisp

variable {here : Site} {name : String} {w u w' : World}

namespace World

/-! ## The namespace of the running thread -/

/-- The running thread is in a namespace of this name when it asks for its current namespace. -/
def InNamespace (here : Site) (name : String) (w : World) : Prop :=
  ∃ n, (w.currentNamespace here).1 = .ok n ∧ n.name = name

/-- Learning keywords does not change the current namespace. -/
theorem InNamespace.glanced (h : InNamespace here name w) (hu : w.Glanced u) :
    InNamespace here name u := by
  have hstate : u.threadState? here = w.threadState? here := hu.threadState? here
  have hroot : u.root = w.root := funext hu.root
  have hfind : u.findNamespace? here.registry coreName = w.findNamespace? here.registry coreName :=
    hu.findNamespace _ _
  have hcore : (u.internCore here.registry).1 = (w.internCore here.registry).1 := by
    unfold internCore internNamespace
    rw [hfind, show u.tables = w.tables from hu.tables]
    split <;> rfl
  unfold InNamespace at h ⊢
  rw [fst_currentNamespace] at h ⊢
  unfold ThreadState.currentIn at h ⊢
  rwa [hstate, hroot, hcore]

/-- Where there is no such registry, no thread is remembered. -/
theorem inNamespace_missing (h : w.registries.size ≤ here.registry) :
    InNamespace here coreName w := by
  have hregistry : w.registry here.registry = default := by
    unfold registry
    rw [Array.getElem?_eq_none h]
    rfl
  have hstate : w.threadState? here = none := by
    unfold threadState?
    rw [hregistry]
    rfl
  have hcore : w.findNamespace? here.registry coreName = none := by
    unfold findNamespace?
    rw [hregistry]
    rfl
  refine ⟨_, currentNamespace_first hstate, ?_⟩
  unfold internCore internNamespace
  rw [hcore]

/-- Asking for the current namespace does not change it. -/
theorem InNamespace.currentNamespace (h : InNamespace here name w) :
    InNamespace here name (w.currentNamespace here).2 := by
  show InNamespace here name (w.threadState here).2
  obtain ⟨n, hn, rfl⟩ := h
  by_cases hr : here.registry < w.registries.size
  · -- The state that the thread has got is found from now on.
    have hfound := w.threadState?_threadState hr
    refine ⟨n, ?_, rfl⟩
    rw [fst_currentNamespace, hfound]
    exact hn
  · -- The thread is in a new core namespace each time.
    have hmissing : w.registries.size ≤ here.registry := Nat.le_of_not_lt hr
    obtain ⟨m, hm, hname⟩ := inNamespace_missing hmissing
    rw [hm] at hn
    cases hn
    rw [hname]
    exact inNamespace_missing (by rw [size_registries_threadState]; exact hmissing)

/-! ## Where values can be read back -/

/-- Keywords stand under their names, and the running thread is in a namespace of this name. -/
structure Ready (here : Site) (name : String) (w : World) : Prop where
  faithful : w.Faithful
  inNamespace : w.InNamespace here name

namespace Ready

theorem glanced (h : Ready here name w) (hu : w.Glanced u) : Ready here name u :=
  ⟨h.faithful.glanced hu, h.inNamespace.glanced hu⟩

theorem currentNamespace (h : Ready here name w) : Ready here name (w.currentNamespace here).2 := by
  refine ⟨h.faithful.of_same fun q => ?_, h.inNamespace.currentNamespace⟩
  exact keywords_threadState w q here

theorem internKeyword (h : Ready here name w) (s : Symbol) :
    Ready here name (w.internKeyword here.registry s).2 :=
  h.glanced (.internKeyword w _ s)

/-- A keyword that is read can be written. -/
theorem readKeyword (h : Ready here name w) (hname : ReadableName name) {text : String}
    (htext : KeywordWord text.toList) (auto : Bool) :
    Ready here name (w.readKeyword here (Symbol.parse text) auto).2 ∧
      ∀ k, (w.readKeyword here (Symbol.parse text) auto).1 = .ok k → (Value.keyword k).Written := by
  cases auto with
  | false =>
    obtain ⟨hsym, hresolved⟩ := h.faithful.internKeyword here.registry (Symbol.parse text)
    refine ⟨h.internKeyword _, ?_⟩
    rintro k ⟨⟩
    exact Value.written_keyword htext hsym hresolved
  | true =>
    cases hqualified : (Symbol.parse text).isQualified with
    | true =>
      rw [Reader.readKeyword_aliased (by simpa using hqualified)]
      exact ⟨h, nofun⟩
    | false =>
      obtain ⟨n, hn, rfl⟩ := h.inNamespace
      have hcurrent := h.currentNamespace
      unfold World.readKeyword
      generalize w.currentNamespace here = current at hn hcurrent ⊢
      obtain ⟨_, u⟩ := current
      dsimp only at hn hcurrent
      subst hn
      rw [hqualified]
      have hsymbol : (Symbol.parse text).inNamespace n.name = ⟨n.name, text⟩ := by
        unfold Symbol.inNamespace
        rw [Symbol.name_parse_of_not_isQualified hqualified]
      obtain ⟨hsym, hresolved⟩ := hcurrent.faithful.internKeyword here.registry ⟨n.name, text⟩
      dsimp only
      rw [hsymbol]
      refine ⟨hcurrent.internKeyword _, ?_⟩
      rintro k ⟨⟩
      exact Value.written_keyword_qualified hname htext hsym hresolved

end Ready

end World

/-! ## Reading -/

/-- The items that wait in a frame can be written. -/
def Frame.Written : Frame → Prop
  | .quote => True
  | .group _ items => ∀ v ∈ items, v.Written

/-- What a token has led to can be written. -/
def ReadStep.Written : ReadStep → Prop
  | .form v => v.Written
  | .pending frames => ∀ f ∈ frames, f.Written
  | .refused _ _ => True

namespace Reader

variable {v : Value} {frames : List Frame} {items : List Value} {t : Token} {ls : List Lexeme}
  {text : String}

theorem written_supply (hv : v.Written) (hframes : ∀ f ∈ frames, f.Written) :
    (supply w v frames).1.Written := by
  induction frames generalizing w v with
  | nil => exact hv
  | cons frame frames ih =>
    obtain ⟨hframe, houter⟩ := List.forall_mem_cons.mp hframes
    cases frame with
    | quote =>
      refine ih (.list ?_) houter
      exact List.forall_mem_cons.mpr ⟨Value.written_quoteSymbol, List.forall_mem_singleton.mpr hv⟩
    | group b items =>
      have hitems : Frame.Written (.group b (v :: items)) := List.forall_mem_cons.mpr ⟨hv, hframe⟩
      exact List.forall_mem_cons.mpr ⟨hitems, houter⟩

theorem written_close (b : Bracket) (hitems : ∀ v ∈ items, v.Written)
    (hframes : ∀ f ∈ frames, f.Written) : (close w b items frames).1.Written := by
  unfold close
  cases b with
  | round => exact written_supply (.list hitems) hframes
  | square => exact written_supply (.vector hitems) hframes
  | curly =>
    have hmem : ∀ e ∈ Value.entriesOf (Value.pairUp items), e.1 ∈ items ∧ e.2 ∈ items :=
      fun e he => Value.mem_of_mem_pairUp (Value.mem_of_mem_entriesOf e he)
    dsimp only
    split
    · refine written_supply (.map (Value.distinctKeys_entriesOf _) ?_ ?_) hframes
      · exact fun e he => hitems _ (hmem e he).1
      · exact fun e he => hitems _ (hmem e he).2
    · trivial

/-- One token keeps the world ready, and what has been read so far can be written. -/
theorem ready_step (hw : w.Ready here name) (hname : ReadableName name) (ht : t.Spelled)
    (hframes : ∀ f ∈ frames, f.Written) :
    (step w here frames t).2.Ready here name ∧ (step w here frames t).1.Written := by
  have hsupply : ∀ {u : World} {v : Value}, u.Ready here name → v.Written →
      (supply u v frames).2.Ready here name ∧ (supply u v frames).1.Written :=
    fun hu hv => ⟨hu.glanced (glanced_supply _ _ _), written_supply hv hframes⟩
  cases t with
  | int n => exact hsupply hw (.int n)
  | float x => exact hsupply hw (.float x)
  | str text => exact hsupply (hw.glanced (.newObject w)) (.str _ _)
  | symbol text => exact hsupply hw (Value.written_ofSymbolText ht)
  | keyword text auto =>
    obtain ⟨hready, hwritten⟩ := hw.readKeyword hname ht auto
    unfold step
    dsimp only
    generalize w.readKeyword here (Symbol.parse text) auto = r at hready hwritten ⊢
    obtain ⟨e | k, u⟩ := r
    · exact ⟨hready, trivial⟩
    · exact hsupply hready (hwritten k rfl)
  | quote => exact ⟨hw, List.forall_mem_cons.mpr ⟨trivial, hframes⟩⟩
  | opening b => exact ⟨hw, List.forall_mem_cons.mpr ⟨nofun, hframes⟩⟩
  | closing b =>
    unfold step
    dsimp only
    split
    · rename_i b' items outer
      obtain ⟨hitems, houter⟩ := List.forall_mem_cons.mp hframes
      split
      · refine ⟨hw.glanced (glanced_close _ _ _ _), written_close b ?_ houter⟩
        exact fun v hv => hitems v (List.mem_reverse.mp hv)
      · exact ⟨hw, trivial⟩
    · exact ⟨hw, trivial⟩

theorem recover_suffix (d : Nat) (ls : List Lexeme) : recover d ls <:+ ls := by
  fun_induction recover d ls with
  | case1 => exact List.suffix_refl _
  | case2 => exact List.suffix_refl _
  | case3 d l ls b hl ih => exact ih.trans (List.suffix_cons _ _)
  | case4 d l ls b hl ih => exact ih.trans (List.suffix_cons _ _)
  | case5 d l ls h₁ h₂ ih => exact ih.trans (List.suffix_cons _ _)

/-- The tokens among the lexemes are spelled like their kinds. -/
def Spelled (ls : List Lexeme) : Prop := ∀ l ∈ ls, ∀ t, l.result = .ok t → t.Spelled

theorem Spelled.suffix {ls' : List Lexeme} (h : Spelled ls) (hsuffix : ls' <:+ ls) : Spelled ls' :=
  fun l hl => h l (hsuffix.subset hl)

theorem spelled_lex (text : String) : Spelled (lex text) := by
  intro l hl t ht
  have hkind : l.kind ∈ kinds text.toList := List.mem_map_of_mem hl
  rw [Lexeme.kind_of_result ht] at hkind
  exact spelled_of_kinds hkind

/-- Reading a form keeps the world ready, and the form can be written. -/
theorem ready_readFrom (hw : w.Ready here name) (hname : ReadableName name) (hls : Spelled ls)
    (hframes : ∀ f ∈ frames, f.Written) :
    (readFrom w here frames ls).world.Ready here name ∧ (readFrom w here frames ls).rest <:+ ls ∧
      ∀ v, (readFrom w here frames ls).result = some (.ok v) → v.Written := by
  induction ls generalizing w frames with
  | nil => cases frames <;> exact ⟨hw, List.suffix_refl _, fun _ hv => by cases hv⟩
  | cons l ls ih =>
    have htail : Spelled ls := hls.suffix (List.suffix_cons l ls)
    rw [readFrom]
    cases hl : l.result with
    | error e => exact ⟨hw, (recover_suffix _ _).trans (List.suffix_cons _ _), fun _ hv => by cases hv⟩
    | ok t =>
      obtain ⟨hready, hwritten⟩ :=
        ready_step hw hname (hls l (List.mem_cons_self ..) t hl) hframes
      dsimp only
      generalize step w here frames t = r at hready hwritten ⊢
      obtain ⟨v | frames' | ⟨e, d⟩, u⟩ := r
      · refine ⟨hready, List.suffix_cons _ _, ?_⟩
        rintro v ⟨⟩
        exact hwritten
      · obtain ⟨hu, hsuffix, hresult⟩ := ih hready htail hwritten
        exact ⟨hu, hsuffix.trans (List.suffix_cons _ _), hresult⟩
      · exact ⟨hready, (recover_suffix _ _).trans (List.suffix_cons _ _), fun _ hv => by cases hv⟩

/-- All values that are read can be written. -/
theorem written_of_resultsUpTo {n : Nat} (hw : w.Ready here name) (hname : ReadableName name)
    (hls : Spelled ls) (hv : .ok v ∈ (resultsUpTo here n w ls).1) : v.Written := by
  induction n generalizing w ls with
  | zero => cases hv
  | succ n ih =>
    have hnone : ∀ f ∈ ([] : List Frame), f.Written := fun f hf => nomatch hf
    obtain ⟨hready, hsuffix, hresult⟩ := ready_readFrom hw hname hls hnone
    unfold resultsUpTo next at hv
    generalize readFrom w here [] ls = reading at hready hsuffix hresult hv
    obtain ⟨result, rest, u⟩ := reading
    cases result with
    | none => cases hv
    | some r =>
      obtain rfl | hv := List.mem_cons.mp hv
      · exact hresult v rfl
      · exact ih hready (hls.suffix hsuffix) hv

/-- What the reader gives for a text can be written. -/
theorem written_of_results (hw : w.Ready here name) (hname : ReadableName name)
    (hv : .ok v ∈ (results w here text).1) : v.Written :=
  written_of_resultsUpTo hw hname (spelled_lex text) hv

end Reader

end SmallLisp
