import SmallLisp.Proofs.Analysis.Heads

/-!
# What definitions leave behind

A definition gives a var a new root, whatever stood under the name before; only a definition of a macro gives
it metadata as well. So after a definition of a macro the calls of the name are expanded with the new function,
and after any other definition with a value they are ordinary calls of the var, unless it has borne the mark of
macros already, for the mark stays (`definition_decides`). Nothing else that has happened before counts, and it
is the same in copies of the registry (`Descends`).
-/

namespace SmallLisp

variable {here : Site} {w w₁ u x : World} {S : List Scope} {n : String} {v : Var}

/-- A form that defines the bare name `n` by a value, and whether it defines a macro. -/
inductive Defines (n : String) : Bool → Value → Prop
  | plain (id : ObjectId) (init : Value) :
    Defines n false (.list id [.symbol (Symbol.bare "def"), .symbol (Symbol.bare n), init])
  | documented (id textId : ObjectId) (text : String) (init : Value) :
    Defines n false
      (.list id [.symbol (Symbol.bare "def"), .symbol (Symbol.bare n), .str textId text, init])
  | expander (id paramsId : ObjectId) (own forms : List Value) :
    Defines n true
      (.list id (.symbol (Symbol.bare "defmacro") :: .symbol (Symbol.bare n) :: .vector paramsId own :: forms))

/-! ## What is kept on the way -/

/-- An analysis that succeeds keeps what programs keep. -/
theorem Kept.of_analysis_ok {strict : Prop} {Holds : World → Prop} (h : Kept here strict Holds) {α : Type}
    {P : α → Prop} {a : Analysis α} (ha : h.invariant.lockstep.Analyses S P a a) (hw : Holds w) {y : α}
    {d : Desk} (hrun : a ⟨w, S⟩ = .ok y d) : Holds d.world :=
  (Invariant.of_ok (Lockstep.inScopes ha) hw (Analysis.inScopes_of_ok hrun)).2

/-- So does an evaluation, where local names need not be bound. -/
theorem Kept.of_evaluate_ok {Holds : World → Prop} (h : Kept here False Holds) {depth : Nat} {locals : Locals}
    {e : Expr} {y : Value} (hw : Holds w) (hrun : evaluate here depth locals e w = .ok y u) : Holds u := by
  have hsound : h.invariant.lockstep.SoundAt locals e :=
    ⟨⟨fun _ _ => False.elim, fun _ _ => trivial⟩, fun _ _ _ _ => trivial⟩
  exact (Invariant.of_ok (Lockstep.evaluate (Nat.le_refl depth) hsound) hw hrun).2

/-- The world keeps what it held before, and all stands under its own name. -/
structure World.Follows (w u : World) : Prop where
  keeps : w.Keeps u
  registered : u.Registered

theorem World.following (w : World) (here : Site) : Kept here False w.Follows where
  covered _ h f := (w.keeping here).covered h.keeps f
  newObject _ h := ⟨(w.keeping here).newObject h.keeps, (Registered.kept here).newObject h.registered⟩
  uniqueName _ h stem :=
    ⟨(w.keeping here).uniqueName h.keeps stem, (Registered.kept here).uniqueName h.registered stem⟩
  print _ h text := ⟨(w.keeping here).print h.keeps text, (Registered.kept here).print h.registered text⟩
  internKeyword _ h s :=
    ⟨(w.keeping here).internKeyword h.keeps s, (Registered.kept here).internKeyword h.registered s⟩
  internNamespace _ h name :=
    ⟨(w.keeping here).internNamespace h.keeps name, (Registered.kept here).internNamespace h.registered name⟩
  internVar _ h s := ⟨(w.keeping here).internVar h.keeps s, (Registered.kept here).internVar h.registered s⟩
  threadState _ h := ⟨(w.keeping here).threadState h.keeps, (Registered.kept here).threadState h.registered⟩
  newFunction _ h c hc :=
    ⟨(w.keeping here).newFunction h.keeps c hc, (Registered.kept here).newFunction h.registered c hc⟩
  setRoot _ h v y := ⟨(w.keeping here).setRoot h.keeps v y, (Registered.kept here).setRoot h.registered v y⟩
  setMetadata _ h v y :=
    ⟨(w.keeping here).setMetadata h.keeps v y, (Registered.kept here).setMetadata h.registered v y⟩

theorem World.Registered.follows (h : w.Registered) : w.Follows w := ⟨.refl w, h⟩

/-- What stands in a registry stands there ever after. -/
theorem World.StandsAt.keeps {r : RegistryId} {name : String} {s : Symbol} (h : w.StandsAt r name s v)
    (hk : w.Keeps u) : u.StandsAt r name s v := by
  obtain ⟨m, hm, hv⟩ := h
  exact ⟨m, hk.find hm, hk.var hv⟩

theorem World.StandsAt.var_lt {r : RegistryId} {name : String} {s : Symbol} (h : w.StandsAt r name s v)
    (hw : w.Registered) : v.id < w.cells.size := by
  obtain ⟨m, hm, hv⟩ := h
  exact hw.var_lt (.table (World.hasNamespace_of_find hm) (mem_of_lookup hv))

/-! ## The var of a definition -/

/-- The current namespace is the same when it is asked for again. -/
theorem World.currentNamespace_again (h : here.registry < w.registries.size) :
    (w.currentNamespace here).2.currentNamespace here = w.currentNamespace here := by
  have hstate := w.threadState?_threadState h
  unfold World.currentNamespace
  dsimp only
  unfold World.threadState at hstate ⊢
  rw [hstate]

/-- A var that has been interned stands under its name in the registry, which has been made. -/
theorem World.Registered.standsAt_internVar (hw : w.Registered) {r : RegistryId} {q : Symbol}
    (h : w.internVar r q = (.ok v, u)) :
    q.isQualified ∧ r < w.registries.size ∧ u.StandsAt r q.ns q v := by
  obtain ⟨fault, heq⟩ | ⟨m, hqualified, hm⟩ := w.internVar_cases r q
  · rw [heq] at h
    cases h
  · rw [w.internVar_of_find r hqualified hm] at h
    cases h
    have hr := World.lt_of_find hm
    have hkept := (w.keeps_internVarIn m q).find hm
    have hvar := World.find_internVarIn (hw.namespace_lt (World.hasNamespace_of_find hm)) q
    exact ⟨hqualified, hr, m, hkept, hvar⟩

/-- The target of a definition of a bare name stands in the namespace of the registry that is named like the
current one. -/
theorem World.Registered.of_target (hw : w.Registered) {form : SpecialForm}
    (h : Analysis.target here form (.symbol (Symbol.bare n)) w = .ok v u) :
    ∃ c, (w.currentNamespace here).1 = .ok c ∧ c.name ≠ "" ∧
      u.StandsAt here.registry c.name ⟨c.name, n⟩ v ∧ u.Registered := by
  obtain ⟨c, w₁, hc, h⟩ := of_run_bind_ok h
  have hc := of_attempt_ok hc
  rw [Symbol.isQualified_bare] at h
  obtain ⟨q, w₂, hq, h⟩ := of_run_bind_ok h
  have hq := of_attempt_ok hq
  have hv := of_attempt_ok h
  have hc₁ : (w.currentNamespace here).1 = .ok c := congrArg Prod.fst hc
  have hw₁ : w₁ = (w.threadState here).2 := (congrArg Prod.snd hc).symm
  have hw₂ : w₂ = (w₁.threadState here).2 := by
    unfold World.qualify at hq
    rw [Symbol.isQualified_bare] at hq
    exact (congrArg Prod.snd hq).symm
  have hregistered : w₂.Registered := by
    rw [hw₂, hw₁]
    exact (World.Registered.kept here).threadState ((World.Registered.kept here).threadState hw)
  obtain ⟨hqualified, hlt, hstands⟩ := hregistered.standsAt_internVar hv
  rw [hw₂, hw₁] at hlt
  have hlt : here.registry < w.registries.size := by simpa using hlt
  -- By now the thread has its state, so it is asked for the same namespace twice.
  have hname : q = ⟨c.name, n⟩ := by
    have hagain := World.currentNamespace_again hlt
    rw [hc] at hagain
    unfold World.qualify at hq
    rw [Symbol.isQualified_bare] at hq
    dsimp only at hq hagain
    rw [hagain] at hq
    exact (Except.ok.inj (congrArg Prod.fst hq)).symm
  subst hname
  have hu := (World.Registered.kept here).internVar hregistered ⟨c.name, n⟩
  rw [hv] at hu
  exact ⟨c, hc₁, by simpa [Symbol.isQualified] using hqualified, hstands, hu⟩

/-! ## What a definition is analysed to -/

/-- Metadata that a definition gives to its var: a definition of a macro gives the mark, any other one gives
none. -/
def Marking (defines : Bool) (metadata : Option Value) : Prop :=
  if defines then ∃ id key, metadata = some (.map id [(key, .bool true)]) ∧
    ∀ (x : World) v, x.hasFlag v key = x.isMacro v
  else metadata = none

/-- What the metadata of `Marking` make of a var. -/
theorem Marking.isMacro {defines : Bool} {metadata : Option Value} (h : Marking defines metadata)
    (hv : v.id < w.cells.size) :
    ((metadata.map (w.setMetadata v)).getD w).isMacro v = (defines || w.isMacro v) ∧
      ((metadata.map (w.setMetadata v)).getD w).root v = w.root v := by
  unfold Marking at h
  split at h
  · rename_i hdefines
    obtain ⟨id, key, rfl, hflag⟩ := h
    have hcell : (w.setMetadata v (.map id [(key, .bool true)])).cell v =
        { w.cell v with metadata := some (.map id [(key, .bool true)]) } := by
      unfold World.cell World.setMetadata
      dsimp only
      rw [Array.getElem?_modify, if_pos rfl, Array.getElem?_eq_getElem hv]
      rfl
    constructor
    · rw [hdefines, Bool.true_or, ← hflag]
      unfold World.hasFlag World.metadata
      rw [Option.map_some, Option.getD_some, hcell]
      simp [Value.lookup, Value.equal_self, Value.isTruthy]
    · unfold World.root
      rw [Option.map_some, Option.getD_some, hcell]
  · rename_i hdefines
    rw [Bool.not_eq_true] at hdefines
    rw [h, hdefines]
    exact ⟨rfl, rfl⟩

/-- A special form that is no local name is analysed as such. -/
theorem meaning_special {id : ObjectId} {name : String} {args : List Value} {f : SpecialForm} {depth : Nat}
    (hname : Analysis.specialForm? (Symbol.bare name) = some f) (hlocal : NotLocal name S) :
    Analysis.meaning here (depth + 1) (.list id (.symbol (Symbol.bare name) :: args)) ⟨w, S⟩ =
      Analysis.special here (Analysis.meaning here depth) f args ⟨w, S⟩ := by
  have hkind : Analysis.kind here (Symbol.bare name) ⟨w, S⟩ = .ok (.special f) ⟨w, S⟩ := by
    unfold Analysis.kind Analysis.globalKind
    rw [run_bind_of_ok (hlocal.isLocal w), hname]
    rfl
  exact meaning_of_special hkind

section

variable {depth : Nat} {e : Expr} {d : Desk}

/-- What becomes of the target of a definition while the rest of it is analysed. -/
theorem World.Registered.of_target_analyses (hw : w.Registered) {special : SpecialForm}
    (hv : Analysis.target here special (.symbol (Symbol.bare n)) w = .ok v w₁) {P : Expr → Prop}
    {a : Analysis Expr} (ha : (w₁.following here).invariant.lockstep.Analyses S P a a)
    (hrun : a ⟨w₁, S⟩ = .ok e d) :
    ∃ c, (w.currentNamespace here).1 = .ok c ∧ c.name ≠ "" ∧
      d.world.StandsAt here.registry c.name ⟨c.name, n⟩ v := by
  obtain ⟨c, hc, hne, hstands, hregistered⟩ := hw.of_target hv
  have hfollows := (w₁.following here).of_analysis_ok ha hregistered.follows hrun
  exact ⟨c, hc, hne, hstands.keeps hfollows.keeps⟩

/-- A definition by a value. -/
theorem World.Registered.of_define (hw : w.Registered) {i : Value}
    (h : Analysis.define here (Analysis.meaning here depth) [.symbol (Symbol.bare n), i] ⟨w, S⟩ = .ok e d) :
    ∃ c v init, (w.currentNamespace here).1 = .ok c ∧ c.name ≠ "" ∧ e = .define v (some init) none ∧
      d.world.StandsAt here.registry c.name ⟨c.name, n⟩ v := by
  obtain ⟨v, d₁, hact, h⟩ := of_run_bind_ok h
  obtain ⟨w₁, hv, rfl⟩ := Analysis.of_act_ok hact
  obtain ⟨init, d₂, hinit, h⟩ := of_run_bind_ok h
  cases h
  have hmeaning := Lockstep.meaning (L := (w₁.following here).invariant.lockstep) (Nat.le_refl depth) S i
    ((w₁.following here).allows i)
  obtain ⟨c, hc, hne, hstands⟩ := hw.of_target_analyses hv hmeaning hinit
  exact ⟨c, v, init, hc, hne, rfl, hstands⟩

/-- A definition of a macro. -/
theorem World.Registered.of_defineMacro (hw : w.Registered) {paramsId : ObjectId} {own forms : List Value}
    (h : Analysis.defineMacro here (Analysis.meaning here depth)
      (.symbol (Symbol.bare n) :: .vector paramsId own :: forms) ⟨w, S⟩ = .ok e d) :
    ∃ c v init metadata, (w.currentNamespace here).1 = .ok c ∧ c.name ≠ "" ∧
      e = .define v (some init) metadata ∧ Marking true metadata ∧
      d.world.StandsAt here.registry c.name ⟨c.name, n⟩ v := by
  obtain ⟨v, d₁, hact, h⟩ := of_run_bind_ok h
  obtain ⟨w₁, hv, rfl⟩ := Analysis.of_act_ok hact
  obtain ⟨f, d₂, hf, hmark⟩ := of_run_bind_ok h
  obtain ⟨metadata, d₃, hact, he⟩ := of_run_bind_ok hmark
  obtain ⟨w₃, hmetadata, rfl⟩ := Analysis.of_act_ok hact
  cases he
  have kept := w₁.following here
  have hargs : kept.invariant.lockstep.AllowsAll
      (.vector paramsId (Analysis.macroParams ++ own) :: forms) := kept.allowsAll _
  have hfunction := Lockstep.functionFrom (S := S)
    (Lockstep.meaning (L := kept.invariant.lockstep) (Nat.le_refl depth)) none hargs
  -- All that comes after the target is one analysis, which keeps the var where it stands.
  have hmarking := Lockstep.Analyses.bind hfunction fun f _ =>
    Lockstep.Analyses.bind (Lockstep.Analyses.act Lockstep.markMetadata) fun metadata _ =>
      Lockstep.Analyses.pure (x := Expr.define v (some (.function f.1 f.2)) (some metadata))
        (P := fun _ => True) trivial
  obtain ⟨c, hc, hne, hstands⟩ := hw.of_target_analyses hv hmarking h
  refine ⟨c, v, _, some metadata, hc, hne, rfl, ?_, hstands⟩
  -- The keyword of the mark is there under its own name.
  obtain ⟨-, -, -, -, hregistered⟩ := hw.of_target hv
  have hfollows := kept.of_analysis_ok hfunction hregistered.follows hf
  obtain ⟨key, hkey, hflag⟩ := hfollows.registered.hasFlag_markKey here
  obtain ⟨key', w₄, hkey', hmap⟩ := of_run_bind_ok hmetadata
  cases hkey.symm.trans hkey'
  cases hmap
  exact ⟨_, key, rfl, hflag⟩

/-- The var and the value of a definition that defines no macro. -/
theorem World.Registered.of_meaning_plain (hw : w.Registered) {form : Value} (hform : Defines n false form)
    (hdef : NotLocal "def" S) (h : Analysis.meaning here depth form ⟨w, S⟩ = .ok e d) :
    ∃ c v init, (w.currentNamespace here).1 = .ok c ∧ c.name ≠ "" ∧ e = .define v (some init) none ∧
      d.world.StandsAt here.registry c.name ⟨c.name, n⟩ v := by
  cases depth with
  | zero => cases h
  | succ depth =>
    cases hform with
    | plain id init =>
      rw [meaning_special (f := .define) (by decide) hdef] at h
      exact hw.of_define h
    | documented id textId text init =>
      rw [meaning_special (f := .define) (by decide) hdef] at h
      -- The text is passed over.
      exact hw.of_define (i := init) h

/-- The var, the value and the metadata of a definition. -/
theorem World.Registered.of_meaning_defines (hw : w.Registered) {defines : Bool} {form : Value}
    (hform : Defines n defines form) (hdef : NotLocal "def" S) (hdefm : NotLocal "defmacro" S)
    (h : Analysis.meaning here depth form ⟨w, S⟩ = .ok e d) :
    ∃ c v init metadata, (w.currentNamespace here).1 = .ok c ∧ c.name ≠ "" ∧
      e = .define v (some init) metadata ∧ Marking defines metadata ∧
      d.world.StandsAt here.registry c.name ⟨c.name, n⟩ v := by
  cases defines with
  | false =>
    obtain ⟨c, v, init, hc, hne, he, hstands⟩ := hw.of_meaning_plain hform hdef h
    exact ⟨c, v, init, none, hc, hne, he, rfl, hstands⟩
  | true =>
    cases depth with
    | zero => cases h
    | succ depth =>
      cases hform with
      | expander id paramsId own forms =>
        rw [meaning_special (f := .defineMacro) (by decide) hdefm] at h
        exact hw.of_defineMacro h

end

/-! ## What a definition does -/

/-- Binding a var leaves all metadata as they are. -/
theorem World.metadata_setRoot (w : World) (v v' : Var) (x : Value) :
    (w.setRoot v x).metadata v' = w.metadata v' := by
  unfold World.metadata World.cell World.setRoot
  dsimp only
  rw [Array.getElem?_modify]
  split
  · cases w.cells[v'.id]? <;> rfl
  · rfl

/-- The value is evaluated, the var is bound to it, and the metadata are given to the var. -/
theorem of_evaluate_define {depth : Nat} {locals : Locals} {init : Expr} {metadata : Option Value} {y : Value}
    (h : evaluate here depth locals (.define v (some init) metadata) w = .ok y u) :
    ∃ d x t, evaluate here d locals init w = .ok x t ∧ y = .var v ∧
      u = (metadata.map ((t.setRoot v x).setMetadata v)).getD (t.setRoot v x) := by
  cases depth with
  | zero =>
    simp only [evaluate] at h
    cases h
  | succ depth =>
    simp only [evaluate] at h
    obtain ⟨x, t, hx, h⟩ := of_run_bind_ok h
    obtain ⟨_, t', hroot, h⟩ := of_run_bind_ok h
    cases hroot
    cases metadata with
    | none =>
      cases h
      exact ⟨depth, x, t, hx, rfl, rfl⟩
    | some m =>
      obtain ⟨_, t', hmetadata, h⟩ := of_run_bind_ok h
      cases hmetadata
      cases h
      exact ⟨depth, x, t, hx, rfl, rfl⟩

/-- What a var of a registry has become: in a later world it is the var itself, while it is neither bound nor
marked again; in a copy of the registry it is the var that stands in the same place. A copy binds the vars by
which threads hold their current namespaces, so the root of such a var is not carried over. -/
inductive Descends (w : World) (r : RegistryId) (v : Var) : World → RegistryId → Var → Prop
  /-- It is there. -/
  | self : Descends w r v w r v
  /-- Time passes. -/
  | later {u u' : World} {q : RegistryId} {v' : Var} (h : Descends w r v u q v') (hkeeps : u.Keeps u')
    (hregistered : u'.Registered) (hroot : u'.root v' = u.root v') (hmetadata : u'.metadata v' = u.metadata v') :
    Descends w r v u' q v'
  /-- The registry is copied. -/
  | copy {u : World} {q : RegistryId} {v' v'' : Var} {name : String} {s : Symbol} (h : Descends w r v u q v')
    (hstands : u.StandsAt q name s v') (hcopy : (u.copyRegistry q).2.StandsAt u.registries.size name s v'')
    (hfree : w.isMacro v = true → ∀ e ∈ (u.registry q).threads, e.2.current ≠ v') :
    Descends w r v (u.copyRegistry q).2 u.registries.size v''

/-- A var stands in one place only. -/
theorem World.Registered.stands_unique {r : RegistryId} (hw : w.Registered) {name name' : String}
    {s s' : Symbol}
    (h : w.StandsAt r name s v) (h' : w.StandsAt r name' s' v) : name = name' ∧ s = s' := by
  obtain ⟨m, hm, hv⟩ := h
  obtain ⟨m', hm', hv'⟩ := h'
  have hentered := hw.var (World.hasNamespace_of_find hm) (mem_of_lookup hv)
  have hentered' := hw.var (World.hasNamespace_of_find hm') (mem_of_lookup hv')
  have hnamed := (hw.named r).namespace_name (mem_of_lookup hm)
  have hnamed' := (hw.named r).namespace_name (mem_of_lookup hm')
  have hsame : m = m' := hentered.owner.symm.trans hentered'.owner
  exact ⟨hnamed.symm.trans ((congrArg Namespace.name hsame).trans hnamed'),
    hentered.name.symm.trans hentered'.name⟩

/-- What stands in a registry has an image in the same place of a copy. -/
theorem World.Registered.varImage_copy {r : RegistryId} (hw : w.Registered) {name : String} {s : Symbol}
    {v' : Var} (h : w.StandsAt r name s v) (h' : (w.copyRegistry r).2.StandsAt w.registries.size name s v') :
    ∃ m, w.VarImage (w.copyRegistry r).2 r m v v' := by
  obtain ⟨k, hk, hv⟩ := h
  obtain ⟨m, hm, hv'⟩ := h'
  obtain ⟨m', hm', himage⟩ := forall₂_lookup (hw.image r).namespaces hk
  obtain rfl := Option.some.inj (hm.symm.trans hm')
  obtain ⟨v'', hv'', hvar⟩ := forall₂_lookup himage.vars hv
  obtain rfl := Option.some.inj (hv'.symm.trans hv'')
  exact ⟨m, hvar⟩

/-- It stands in the same place, with the same metadata, and a macro has the same root. -/
theorem Descends.stands {r q : RegistryId} {v' : Var} (h : Descends w r v u q v') (hw : w.Registered)
    {name : String} {s : Symbol} (hv : w.StandsAt r name s v) :
    u.Registered ∧ u.StandsAt q name s v' ∧ u.metadata v' = w.metadata v ∧
      (w.isMacro v = true → u.root v' = w.root v) := by
  induction h with
  | self => exact ⟨hw, hv, rfl, fun _ => rfl⟩
  | later h hkeeps hregistered hroot hmetadata ih =>
    obtain ⟨-, hstands, hmeta, hsame⟩ := ih
    exact ⟨hregistered, hstands.keeps hkeeps, hmetadata.trans hmeta, fun hm => hroot.trans (hsame hm)⟩
  | copy h hstands hcopy hfree ih =>
    obtain ⟨hu, hstands', hmeta, hsame⟩ := ih
    obtain ⟨rfl, rfl⟩ := hu.stands_unique hstands hstands'
    obtain ⟨m, himage⟩ := hu.varImage_copy hstands hcopy
    exact ⟨hu.copyRegistry _, hcopy, himage.metadata.trans hmeta,
      fun hm => (himage.root (hfree hm)).trans (hsame hm)⟩

/-! ## The last definition decides -/

/-- A definition that succeeds has bound the var of its name in the current namespace to its value, and it has
marked the var if it is a definition of a macro; if not, the var is marked if it has been so before. Ever after,
until the var is bound or marked again, and in copies of the registry as well, lists with the name at their
head in a namespace of this name are expanded by the value if the var is marked, and they are calls of the var
if it is not. -/
theorem definition_decides {there : Site} {w₀ w₁ : World} {S₁ : List Scope} {defines : Bool} {form y : Value}
    {depth depth' : Nat} {locals : Locals} {e : Expr} (hw : w₀.Registered) (hform : Defines n defines form)
    (hdef : NotLocal "def" S) (hdefm : NotLocal "defmacro" S)
    (hmeaning : Analysis.meaning here depth form ⟨w₀, S⟩ = .ok e ⟨w₁, S₁⟩)
    (hkeeps : w₁.Keeps u) (hu : u.Registered) (hevaluate : evaluate there depth' locals e u = .ok y w) :
    ∃ c v init metadata d x t, (w₀.currentNamespace here).1 = .ok c ∧
      e = .define v (some init) metadata ∧ evaluate there d locals init u = .ok x t ∧ y = .var v ∧
      w.StandsAt here.registry c.name ⟨c.name, n⟩ v ∧ w.root v = some x ∧
      w.isMacro v = (defines || t.isMacro v) ∧
      ∀ later q v', Descends w here.registry v later q v' → ∀ thread m T,
        (later.currentNamespace ⟨q, thread⟩).1 = .ok m → later.findNamespace? q m.name = some m →
        m.name = c.name → Analysis.specialForm? (Symbol.bare n) = none → NotLocal n T →
          if w.isMacro v then ExpandsBy ⟨q, thread⟩ T later n v' x else CallsVar ⟨q, thread⟩ T later n v' := by
  obtain ⟨c, v, init, metadata, hc, hne, rfl, hmarking, hstands⟩ :=
    hw.of_meaning_defines hform hdef hdefm hmeaning
  obtain ⟨d, x, t, hx, rfl, rfl⟩ := of_evaluate_define hevaluate
  have hkept := u.following there
  -- The value has been evaluated before the var is bound, in a world that has the var already.
  have ht := hkept.of_evaluate_ok hu.follows hx
  have hlt : v.id < (t.setRoot v x).cells.size := by
    have hlt := ((hstands.keeps hkeeps).keeps ht.keeps).var_lt ht.registered
    simpa [World.setRoot] using hlt
  obtain ⟨hmarked, hroot⟩ := hmarking.isMacro hlt
  have hw' := (hkept.of_evaluate_ok hu.follows hevaluate)
  generalize ((metadata.map ((t.setRoot v x).setMetadata v)).getD (t.setRoot v x)) = w at *
  have hnow := (hstands.keeps hkeeps).keeps hw'.keeps
  have hvalue : w.root v = some x :=
    hroot.trans (World.root_setRoot_of_lt (by simpa [World.setRoot] using hlt) x)
  have hbefore : (t.setRoot v x).isMacro v = t.isMacro v := World.isMacro_congr (t.metadata_setRoot v v x)
  refine ⟨c, v, init, metadata, d, x, t, hc, rfl, hx, rfl, hnow, hvalue, hbefore ▸ hmarked, ?_⟩
  -- Later on, only the place of the var and its mark count, and its root if it is a macro.
  intro later q v' hdescends thread m T hm hfound hname hspecial hlocal
  obtain ⟨hregistered, ⟨k, hk, hvar⟩, hmetadata, hsame⟩ := hdescends.stands hw'.registered hnow
  rw [← hname] at hk hvar
  obtain rfl := Option.some.inj (hfound.symm.trans hk)
  have hnames : Names ⟨q, thread⟩ n m v' later := ⟨hm, hfound, hvar⟩
  have hmark : later.isMacro v' = w.isMacro v := World.isMacro_congr hmetadata
  cases hcase : w.isMacro v with
  | true =>
    rw [hcase] at hmark
    exact hnames.expands hregistered hspecial hlocal (hname ▸ hne) hmark ((hsame hcase).trans hvalue)
  | false =>
    rw [hcase] at hmark
    exact hnames.calls hregistered hspecial hlocal hmark

/-! ## A macro in the way of a definition -/

namespace Redefinition

open Expansion

/-- A world in which `m` is a function. -/
def functionWorld : World := (World.empty.after (.create 0 10)).after (.eval site 30 "(def m (fn [x] x))")

/-- The form `(defmacro m [x] 1)`. -/
def macroForm : Value :=
  .list 100 [.symbol (Symbol.bare "defmacro"), .symbol (Symbol.bare "m"),
    .vector 101 [.symbol (Symbol.bare "x")], .int 1]

/-- What it is analysed to. -/
def macroExpr : Expr :=
  .define ⟨5, coreSymbol "m"⟩
    (some (.function ⟨none, [Symbol.bare "&form", Symbol.bare "&env", Symbol.bare "x"], none⟩ (.const (.int 1))))
    (some (.map 3 [(.keyword ⟨0, Symbol.bare "macro", true⟩, .bool true)]))

/-- The world after its analysis. -/
def macroAnalysed : World := functionWorld.after (.analyze site 20 [] macroForm)

/-- The world after it. -/
def macroWorld : World := (evaluate site 20 [] macroExpr).after macroAnalysed

/-- The form `(def m (fn [x] x))`. -/
def functionForm : Value :=
  .list 102 [.symbol (Symbol.bare "def"), .symbol (Symbol.bare "m"),
    .list 103 [.symbol (Symbol.bare "fn"), .vector 104 [.symbol (Symbol.bare "x")], .symbol (Symbol.bare "x")]]

/-- What it is analysed to. -/
def functionExpr : Expr :=
  .define ⟨5, coreSymbol "m"⟩
    (some (.function ⟨none, [Symbol.bare "x"], none⟩ (.localName (Symbol.bare "x")))) none

/-- A world in which `m` is a macro. -/
def replacedWorld : World := (World.empty.after (.create 0 10)).after (.eval site 30 "(defmacro m [x] 1)")

/-- The world after the analysis of the form. -/
def functionAnalysed : World := replacedWorld.after (.analyze site 20 [] functionForm)

/-- The world after it. -/
def markedWorld : World := (evaluate site 20 [] functionExpr).after functionAnalysed

/-- The list `(m 5)`. -/
def callForm : Value := .list 105 [.symbol (Symbol.bare "m"), .int 5]

end Redefinition

open Expansion Redefinition in
/-- After the definition of a macro `m`, lists with `m` at their head are expanded by the new function, where
they were calls of a function before. -/
theorem definition_decides_expander :
    Analysis.meaning site 20 macroForm ⟨functionWorld, []⟩ = .ok macroExpr ⟨macroAnalysed, []⟩ ∧
      evaluate site 20 [] macroExpr macroAnalysed = .ok (.var ⟨5, coreSymbol "m"⟩) macroWorld ∧
      CallsVar site [] functionWorld "m" ⟨5, coreSymbol "m"⟩ ∧
      ∃ f, macroWorld.root ⟨5, coreSymbol "m"⟩ = some (.function f) ∧
        ExpandsBy site [] macroWorld "m" ⟨5, coreSymbol "m"⟩ (.function f) := by
  have hreachable : Reachable functionWorld := (Reachable.empty.after _).after _
  have hregistered := reachable_registered hreachable
  have hmeaning : Analysis.meaning site 20 macroForm ⟨functionWorld, []⟩ =
      .ok macroExpr ⟨macroAnalysed, []⟩ := by cbv
  have hevaluate : evaluate site 20 [] macroExpr macroAnalysed =
      .ok (.var ⟨5, coreSymbol "m"⟩) macroWorld := by cbv
  have hbefore : Names site "m" ⟨0, coreName⟩ ⟨5, coreSymbol "m"⟩ functionWorld :=
    ⟨by cbv, by cbv, by cbv⟩
  have hcalls := hbefore.calls hregistered (S := []) (by decide) (notLocal_nil _) (by cbv)
  obtain ⟨c, v, init, metadata, d, x, t, hc, he, hx, hy, -, hroot, hmark, hlater⟩ :=
    definition_decides hregistered (.expander 100 101 [.symbol (Symbol.bare "x")] [.int 1]) (notLocal_nil _)
      (notLocal_nil _) hmeaning
      (.refl _) (reachable_registered (hreachable.after _)) hevaluate
  cases hy
  have hfunction : macroWorld.root ⟨5, coreSymbol "m"⟩ = some (.function ⟨1, ⟨none, [Symbol.bare "&form",
      Symbol.bare "&env", Symbol.bare "x"], none⟩⟩) := by cbv
  obtain rfl := Option.some.inj (hroot.symm.trans hfunction)
  obtain rfl := Except.ok.inj (hc.symm.trans hbefore.current)
  have hafter : (macroWorld.currentNamespace site).1 = .ok ⟨0, coreName⟩ := by cbv
  have hfound : macroWorld.findNamespace? site.registry coreName = some ⟨0, coreName⟩ := by cbv
  rw [Bool.true_or] at hmark
  simp only [hmark, if_true] at hlater
  have hexpands := hlater _ _ _ .self 0 _ [] hafter hfound rfl (by decide) (notLocal_nil _)
  exact ⟨hmeaning, hevaluate, hcalls, _, hfunction, hexpands⟩

/-- What `definition_decides` would say if definitions did away with the mark of macros: after a definition by a
value, lists with the name at their head are calls of the var, whatever it has been before. -/
def DefinitionsReplaceMacros : Prop :=
  ∀ (here : Site) (n : String) (w w₁ u : World) (form y : Value) (e : Expr) (depth : Nat) (m : Namespace)
    (v : Var), Reachable w → Defines n false form → Analysis.specialForm? (Symbol.bare n) = none →
    Analysis.meaning here depth form ⟨w, []⟩ = .ok e ⟨w₁, []⟩ → evaluate here depth [] e w₁ = .ok y u →
    Names here n m v u → CallsVar here [] u n v

open Expansion Redefinition in
/-- They do not: after `(defmacro m [x] 1)` and `(def m (fn [x] x))` the list `(m 5)` is expanded by the
function of the second definition, which does not take three arguments. -/
theorem not_definitionsReplaceMacros : ¬ DefinitionsReplaceMacros := by
  intro h
  have hreachable : Reachable replacedWorld := (Reachable.empty.after _).after _
  have hmeaning : Analysis.meaning site 20 functionForm ⟨replacedWorld, []⟩ =
      .ok functionExpr ⟨functionAnalysed, []⟩ := by cbv
  have hevaluate : evaluate site 20 [] functionExpr functionAnalysed =
      .ok (.var ⟨5, coreSymbol "m"⟩) markedWorld := by cbv
  have hnames : Names site "m" ⟨0, coreName⟩ ⟨5, coreSymbol "m"⟩ markedWorld := ⟨by cbv, by cbv, by cbv⟩
  have hcalls := h site "m" _ _ _ functionForm _ _ _ _ _ hreachable (.plain _ _) (by decide) hmeaning
    hevaluate hnames
  have hcall := hcalls 105 [.int 5] 20
  have herror : Analysis.meaning site 22 callForm ⟨markedWorld, []⟩ =
      .error (.error (.eval (.wrongArgCount (.function ⟨1, ⟨none, [Symbol.bare "x"], none⟩⟩) 3)))
        ⟨markedWorld.after (.analyze site 22 [] callForm), []⟩ := by cbv
  have hvalue : (Expr.call (.root ⟨5, coreSymbol "m"⟩) <$>
      Action.forEach (Analysis.meaning site 21) [.int 5]) ⟨markedWorld.looked site, []⟩ =
        .ok (.call (.root ⟨5, coreSymbol "m"⟩) [.const (.int 5)]) ⟨markedWorld.looked site, []⟩ := by cbv
  cases herror.symm.trans (hcall.trans hvalue)

end SmallLisp
