import SmallLisp.Proofs.Analysis.Limit
import SmallLisp.Proofs.Session.Keywords
import SmallLisp.Proofs.Value.Entries
import SmallLisp.Proofs.World.Interning

/-!
# What a bare head leads to

A list whose head is a bare name of the current namespace, and neither a special form nor a local name, is
analysed by what stands under the name alone. If the var bears the mark of macros, the list is expanded by
calling the root of the var (`Names.expands`); if it does not, the list is an ordinary call of it
(`Names.calls`).
-/

namespace SmallLisp

variable {here : Site} {w u : World} {S : List Scope} {n : String} {m : Namespace} {v : Var}

/-! ## The mark of macros -/

namespace World

/-- The var bears the mark of macros. Keywords are equal by their names, whatever registry has them. -/
def isMacro (w : World) (v : Var) : Bool := w.hasFlag v (.keyword ⟨0, Symbol.bare "macro", true⟩)

theorem hasFlag_congr {key key' : Value} (h : key.equal key' = true) (w : World) (v : Var) :
    w.hasFlag v key = w.hasFlag v key' := by
  unfold hasFlag
  split
  · rw [Value.lookup_congr h]
  · rfl

/-- The metadata alone matter. -/
theorem isMacro_congr {v' : Var} (h : u.metadata v' = w.metadata v) : u.isMacro v' = w.isMacro v := by
  unfold isMacro hasFlag
  rw [h]

/-- In a world whose keywords stand under their names, this is how the mark is looked up. -/
theorem Registered.hasFlag_markKey (h : w.Registered) (here : Site) :
    ∃ key, markKey here w = .ok key (w.internKeyword here.registry (Symbol.bare "macro")).2 ∧
      ∀ x v, World.hasFlag x v key = x.isMacro v := by
  have hfaithful : w.Faithful := fun r s k hk => (h.named r).keyword_name (mem_of_lookup hk)
  obtain ⟨hsym, hresolved⟩ := hfaithful.internKeyword here.registry (Symbol.bare "macro")
  refine ⟨_, rfl, fun x v => hasFlag_congr ?_ x v⟩
  unfold Value.equal
  rw [hsym, hresolved]
  rfl

end World

/-- Expansion finds the macro that a symbol names. -/
theorem Primed.macroVar_of_isMacro (h : Primed here w) (hw : w.Registered) {head : Symbol}
    (hfind : w.findVar here head = (.ok (some v), w)) (hmark : w.isMacro v = true) :
    macroVar? here head w = .ok (some v) w := by
  obtain ⟨key, hkey, hflag⟩ := hw.hasFlag_markKey here
  obtain ⟨key', hkey'⟩ := h.markKey
  obtain ⟨rfl, -⟩ := EStateM.Result.ok.inj (hkey.symm.trans hkey')
  have hmarked : w.hasFlag v key = true := (hflag w v).trans hmark
  rw [macroVar_of_findVar hfind hkey', if_pos hmarked]

/-! ## Lists of a known kind -/

section

variable {id : ObjectId} {head : Symbol} {args : List Value} {depth : Nat} {d d' : Desk}

theorem meaning_of_special {f : SpecialForm} (h : Analysis.kind here head d = .ok (.special f) d') :
    Analysis.meaning here (depth + 1) (.list id (.symbol head :: args)) d =
      Analysis.special here (Analysis.meaning here depth) f args d' :=
  run_bind_of_ok h

theorem meaning_of_call (h : Analysis.kind here head d = .ok .call d') :
    Analysis.meaning here (depth + 1) (.list id (.symbol head :: args)) d =
      Analysis.call (Analysis.meaning here depth) (.symbol head) args d' :=
  run_bind_of_ok h

theorem meaning_of_macroCall (h : Analysis.kind here head d = .ok (.macroCall v) d') :
    Analysis.meaning here (depth + 1) (.list id (.symbol head :: args)) d =
      (Analysis.act (Analysis.expansion (expandFully here depth) v head
        (.list id (.symbol head :: args)) args) >>= Analysis.meaning here depth) d' :=
  run_bind_of_ok h

end

/-! ## Looking up a bare name -/

/-- The bare name `n` names this var where the code runs: the current namespace is a namespace of the
registry, and it has the var. -/
structure Names (here : Site) (n : String) (m : Namespace) (v : Var) (w : World) : Prop where
  current : (w.currentNamespace here).1 = .ok m
  found : w.findNamespace? here.registry m.name = some m
  var : w.findVarIn? m ⟨m.name, n⟩ = some v

/-- The world after a bare head has been looked up: the thread has its state, and the registry has the
keyword that marks macros. -/
def World.looked (w : World) (here : Site) : World :=
  ((w.threadState here).2.internKeyword here.registry (Symbol.bare "macro")).2

/-- The name is not bound by an open scope. -/
def NotLocal (n : String) (S : List Scope) : Prop := ∀ names ∈ S, Symbol.bare n ∉ names

theorem notLocal_nil (n : String) : NotLocal n [] := fun _ h => nomatch h

theorem NotLocal.isLocal (h : NotLocal n S) (w : World) :
    Analysis.isLocal (Symbol.bare n) ⟨w, S⟩ = .ok false ⟨w, S⟩ := by
  have hany : (S.any (·.contains (Symbol.bare n))) = false := by
    rw [List.any_eq_false]
    intro names hnames
    simpa using h names hnames
  unfold Analysis.isLocal
  dsimp only
  rw [hany, Bool.and_false]

theorem World.interns_looked (h : w.Registered) (here : Site) :
    w.Interns here.registry (w.looked here) :=
  (interns_threadState h.toApart here).trans (interns_internKeyword _ _ _)

theorem World.Registered.looked (hw : w.Registered) (here : Site) : (w.looked here).Registered :=
  (World.Registered.kept here).internKeyword ((World.Registered.kept here).threadState hw) _

theorem World.keeps_looked (w : World) (here : Site) : w.Keeps (w.looked here) :=
  (w.keeps_threadState here).trans (keeps_internKeyword _ _ _)

namespace Names

theorem lt (h : Names here n m v w) : here.registry < w.registries.size := World.lt_of_find h.found

/-- The name of the var says where it stands. -/
theorem name_eq (h : Names here n m v w) (hw : w.Registered) : v.name = ⟨m.name, n⟩ :=
  (hw.var (World.hasNamespace_of_find h.found) (mem_of_lookup h.var)).name

theorem var_lt (h : Names here n m v w) (hw : w.Registered) : v.id < w.cells.size :=
  hw.var_lt (.table (World.hasNamespace_of_find h.found) (mem_of_lookup h.var))

theorem findVar (h : Names here n m v w) :
    w.findVar here (Symbol.bare n) = (.ok (some v), (w.threadState here).2) := by
  have hcurrent := h.current
  unfold World.findVar
  rw [if_neg (by simp)]
  unfold World.currentNamespace at hcurrent ⊢
  dsimp only at hcurrent ⊢
  rw [hcurrent]
  have hvar := (w.keeps_threadState here).var h.var
  show (Except.ok ((w.threadState here).2.findVarIn? m ⟨m.name, n⟩), _) = _
  rw [hvar]

/-- A thread that has used the registry stays where it is while names are looked up. -/
theorem looked (h : Names here n m v w) (hw : w.Registered) : Names here n m v (w.looked here) := by
  have hkeeps := w.keeps_looked here
  have hstate := w.threadState?_threadState h.lt
  have hcurrent := h.current
  refine ⟨?_, hkeeps.find h.found, hkeeps.var h.var⟩
  have hregistered := (World.Registered.kept here).threadState hw
  have hlt : (w.threadState here).1.current.id < (w.threadState here).2.cells.size :=
    hregistered.var_lt (.thread (mem_of_lookup hstate) rfl)
  have hstate' : (w.looked here).threadState? here = some (w.threadState here).1 :=
    ((w.threadState here).2.grows_internKeyword _ _ _).threads _ _ hstate
  rw [World.fst_currentNamespace, hstate']
  dsimp only
  rw [← hcurrent]
  unfold World.currentNamespace ThreadState.currentIn World.root
  dsimp only
  unfold World.looked
  rw [((w.threadState here).2.interns_internKeyword here.registry _).cell hlt]

/-- Once looked up, a name is looked up again without any change. -/
theorem primed (h : Names here n m v w) : Primed here (w.looked here) := by
  have hstate := w.threadState?_threadState h.lt
  have hlt : here.registry < (w.threadState here).2.registries.size := by simpa using h.lt
  refine ⟨Option.isSome_of_eq_some (((w.threadState here).2.grows_internKeyword _ _ _).threads _ _ hstate), ?_⟩
  exact Option.isSome_of_eq_some ((w.threadState here).2.lookup_internKeyword here.registry hlt _)

theorem isMacro_looked (h : Names here n m v w) (hw : w.Registered) :
    (w.looked here).isMacro v = w.isMacro v := by
  refine World.isMacro_congr ?_
  unfold World.metadata
  rw [(World.interns_looked hw here).cell (h.var_lt hw)]

theorem root_looked (h : Names here n m v w) (hw : w.Registered) : (w.looked here).root v = w.root v :=
  World.root_congr ((World.interns_looked hw here).cell (h.var_lt hw))

/-! ## Lists with the name at their head -/

/-- The var that the name stands for alone decides what a list is. -/
theorem kind (h : Names here n m v w) (hw : w.Registered)
    (hspecial : Analysis.specialForm? (Symbol.bare n) = none) (hlocal : NotLocal n S) :
    Analysis.kind here (Symbol.bare n) ⟨w, S⟩ =
      .ok (if w.isMacro v then .macroCall v else .call) ⟨w.looked here, S⟩ := by
  obtain ⟨key, hkey, hflag⟩ := ((World.Registered.kept here).threadState hw).hasFlag_markKey here
  have hresolve : Analysis.resolve here (Symbol.bare n) w = .ok (some v) (w.threadState here).2 :=
    resolve_of_findVar h.findVar
  have hkind := kind_of_resolve (S := S) (hlocal.isLocal w) hspecial hresolve hkey
  have hmarked : (w.looked here).hasFlag v key = w.isMacro v := (hflag _ v).trans (h.isMacro_looked hw)
  rw [← hmarked]
  exact hkind

/-- The name itself means the root of the var. -/
theorem meaning_name (h : Names here n m v w) (hlocal : NotLocal n S) (depth : Nat) :
    Analysis.meaning here (depth + 1) (.symbol (Symbol.bare n)) ⟨w, S⟩ =
      .ok (.root v) ⟨(w.threadState here).2, S⟩ :=
  meaning_of_findVar (hlocal.isLocal w) h.findVar depth

/-- A head that has been looked up for its kind before is looked up again without any change. -/
theorem meaning_symbol (h : Names here n m v w) (hw : w.Registered) (hlocal : NotLocal n S) (depth : Nat) :
    Analysis.meaning here (depth + 1) (.symbol (Symbol.bare n)) ⟨w.looked here, S⟩ =
      .ok (.root v) ⟨w.looked here, S⟩ := by
  have hmeaning := (h.looked hw).meaning_name hlocal depth
  have hsame : ((w.looked here).threadState here).2 = w.looked here := h.primed.currentNamespace
  rw [hsame] at hmeaning
  exact hmeaning

end Names

/-- Every list with the name at its head is analysed as a call of the var: first the name is looked up, then
the arguments are analysed. -/
def CallsVar (here : Site) (S : List Scope) (w : World) (n : String) (v : Var) : Prop :=
  ∀ id args depth,
    Analysis.meaning here (depth + 2) (.list id (.symbol (Symbol.bare n) :: args)) ⟨w, S⟩ =
      (Expr.call (.root v) <$> Action.forEach (Analysis.meaning here (depth + 1)) args) ⟨w.looked here, S⟩

/-- Every list with the name at its head is analysed as the form that its expansion settles at, and the first
step of the expansion is a call of the function `y`, which gets the whole list, with the full name of the macro
at its head, nil in the place of an environment, and the arguments. -/
def ExpandsBy (here : Site) (S : List Scope) (w : World) (n : String) (v : Var) (y : Value) : Prop :=
  ∀ id args depth, ∃ call,
    call = Value.list (w.looked here).newObject.1 (.symbol v.name :: args) ∧
    Analysis.meaning here (depth + 1) (.list id (.symbol (Symbol.bare n) :: args)) ⟨w, S⟩ =
      (Analysis.act (expandFully here depth call) >>= Analysis.meaning here depth)
        ⟨(w.looked here).newObject.2, S⟩ ∧
    expandOnce here depth call (w.looked here).newObject.2 =
      apply here depth y (call :: .nil :: args) (w.looked here).newObject.2

namespace Names

theorem calls (h : Names here n m v w) (hw : w.Registered)
    (hspecial : Analysis.specialForm? (Symbol.bare n) = none) (hlocal : NotLocal n S)
    (hmark : w.isMacro v = false) : CallsVar here S w n v := by
  intro id args depth
  have hkind := h.kind hw hspecial hlocal
  rw [hmark] at hkind
  refine (meaning_of_call hkind).trans ?_
  unfold Analysis.call
  rw [run_bind_of_ok (h.meaning_symbol hw hlocal depth), map_eq_pure_bind]

theorem expands (h : Names here n m v w) (hw : w.Registered)
    (hspecial : Analysis.specialForm? (Symbol.bare n) = none) (hlocal : NotLocal n S)
    (hname : m.name ≠ "") (hmark : w.isMacro v = true) {y : Value} (hroot : w.root v = some y) :
    ExpandsBy here S w n v y := by
  intro id args depth
  have hfull := h.name_eq hw
  have hqualified : v.name.isQualified = true := by simpa [hfull, Symbol.isQualified] using hname
  have hkind := h.kind hw hspecial hlocal
  rw [hmark] at hkind
  refine ⟨_, rfl, ?_, ?_⟩
  · -- The head is a bare name, so the call is made anew with the full one.
    have hne : v.name ≠ Symbol.bare n := by
      rw [hfull]
      exact fun heq => hname (congrArg Symbol.ns heq)
    refine (meaning_of_macroCall hkind).trans (run_bind_congr ?_)
    unfold Analysis.act Analysis.expansion
    dsimp only
    rw [run_bind_of_ok (namedCall_of_ne hne _)]
  · have hfind : (w.looked here).newObject.2.findVar here v.name =
        (.ok (some v), (w.looked here).newObject.2) := by
      have hlooked := h.looked hw
      unfold World.findVar
      rw [if_pos hqualified, hfull]
      show (Except.ok (((w.looked here).findNamespace? here.registry m.name).bind fun k =>
        (w.looked here).findVarIn? k ⟨m.name, n⟩), _) = _
      rw [hlooked.found, Option.bind_some, hlooked.var]
    have hfound : macroVar? here v.name (w.looked here).newObject.2 =
        .ok (some v) (w.looked here).newObject.2 := by
      have hprimed : Primed here (w.looked here).newObject.2 := ⟨h.primed.thread, h.primed.mark⟩
      have hregistered := (World.Registered.kept here).newObject (hw.looked here)
      refine hprimed.macroVar_of_isMacro hregistered hfind ?_
      exact (h.isMacro_looked hw).trans hmark
    have hview : Action.view (·.root v) (w.looked here).newObject.2 =
        .ok (some y) (w.looked here).newObject.2 := by
      rw [← hroot, ← h.root_looked hw]
      rfl
    exact (run_bind_of_ok hfound).trans (run_bind_of_ok hview)

end Names

end SmallLisp
