import SmallLisp.Proofs.Analysis.Definition
import SmallLisp.Proofs.Session.Threads

/-!
# Looking symbols up

A bare symbol is looked up in the namespace that the thread has in its var, and a symbol with a namespace part in
the namespace that the registry has under that name. A thread is in a namespace that stands in the registry under
its own name (`World.StandsIn`), so for a bare symbol and for its full name both ways lead to the same var. Vars are
interned by their full names and read by bare ones: what a definition of a bare name binds is what the name stands
for, as long as the namespace is the same (`lookups_agree`).
-/

namespace SmallLisp

open World

variable {w u x : World} {here : Site} {m : Crew} {name n : String} {s q : Symbol} {v : Var} {T : List Scope}

/-- The var that the full name of a symbol names. -/
def World.findFully (w : World) (here : Site) (s : Symbol) : Except EvalFault (Option Var) × World :=
  match w.qualify here s with
  | (.ok q, w) => w.findVar here q
  | (.error fault, w) => (.error fault, w)

/-- Evaluated where the code runs, the bare name is looked up and gives the root of the var. -/
structure ReadsVar (here : Site) (T : List Scope) (w : World) (n : String) (v : Var) : Prop where
  meaning : ∀ depth, Analysis.meaning here (depth + 1) (.symbol (Symbol.bare n)) ⟨w, T⟩ =
    .ok (.root v) ⟨(w.threadState here).2, T⟩
  value : ∀ {depth depth' locals y}, w.root v = some y →
    (analyze here (depth + 1) T (.symbol (Symbol.bare n)) >>= evaluate here (depth' + 1) locals) w =
      .ok y (w.threadState here).2

/-- Whenever the definition of the var is evaluated, in the world or after it, the var is bound to the value that
`init` has then; and ever after the bare name reads this var where `c` is the current namespace of the registry. -/
def BindsName (r : RegistryId) (c : Namespace) (n : String) (v : Var) (init : Expr) (w : World) : Prop :=
  ∀ {u u' there depth locals y}, w.Follows u →
    evaluate there depth locals (.define v (some init) none) u = .ok y u' →
      y = .var v ∧ ∃ d x t, evaluate there d locals init u = .ok x t ∧ u' = t.setRoot v x ∧ u'.root v = some x ∧
        ∀ {z site T}, u'.Follows z → site.registry = r → (z.currentNamespace site).1 = .ok c → NotLocal n T →
          ReadsVar site T z n v

/-! ## Bare symbols and symbols with a namespace part -/

theorem Symbol.bare_name (hs : s.isQualified = false) : Symbol.bare s.name = s := by
  obtain ⟨ns, name⟩ := s
  obtain rfl : ns = "" := by simpa [isQualified] using hs
  rfl

theorem World.findVar_of_bare (hs : s.isQualified = false) : w.findVar here s =
    ((w.currentNamespace here).1.map fun n => (w.threadState here).2.findVarIn? n (s.inNamespace n.name),
      (w.threadState here).2) := by
  unfold World.findVar
  rw [hs, if_neg Bool.false_ne_true]
  rfl

/-- A thread that has looked a bare symbol up finds the same when it looks it up again. -/
theorem World.findVar_again (hr : here.registry < w.registries.size) (hs : s.isQualified = false) :
    (w.threadState here).2.findVar here s = w.findVar here s := by
  have hagain : (w.threadState here).2.currentNamespace here = w.currentNamespace here :=
    currentNamespace_again hr
  unfold World.findVar
  rw [hs, if_neg Bool.false_ne_true, if_neg Bool.false_ne_true, hagain]

theorem World.findVar_of_qualified (hs : s.isQualified = true) : w.findVar here s =
    (.ok ((w.findNamespace? here.registry s.ns).bind (w.findVarIn? · s)), w) := by
  unfold World.findVar
  rw [if_pos hs]

theorem World.qualify_of_qualified (hs : s.isQualified = true) : w.qualify here s = (.ok s, w) := by
  unfold World.qualify
  rw [if_pos hs]

/-- What stands in the registry is found by its full name. -/
theorem World.StandsAt.findVar (h : w.StandsAt here.registry s.ns s v) (hs : s.isQualified = true) :
    w.findVar here s = (.ok (some v), w) := by
  obtain ⟨k, hk, hv⟩ := h
  rw [findVar_of_qualified hs, hk, Option.bind_some, hv]

namespace World.StandsIn

variable (h : w.StandsIn here name)
include h

theorem lt : here.registry < w.registries.size := by
  obtain ⟨k, -, hk, -⟩ := h.current
  exact lt_of_find hk

theorem undisturbed (hu : w.Undisturbed u) : u.StandsIn here name := by
  obtain ⟨k, hk, hfound, rfl⟩ := h.current
  exact .of_current ((hu.places here h.lt).trans hk) (hu.keeps.find hfound)

/-- Whatever stands in the namespace of the thread is what its bare name names. -/
theorem names (hv : w.StandsAt here.registry name ⟨name, n⟩ v) : ∃ k, Names here n k v w := by
  obtain ⟨k, hk, hfound, rfl⟩ := h.current
  obtain ⟨k', hk', hv⟩ := hv
  obtain rfl := Option.some.inj (hfound.symm.trans hk')
  exact ⟨k, hk, hfound, hv⟩

theorem qualify_of_bare (hs : s.isQualified = false) :
    w.qualify here s = (.ok (s.inNamespace name), (w.threadState here).2) := by
  refine Prod.ext (h.qualify s hs) ?_
  unfold World.qualify
  rw [hs]
  rfl

/-- A symbol and its full name are looked up with the same result. -/
theorem findFully_eq (s : Symbol) : w.findFully here s = w.findVar here s := by
  unfold World.findFully
  cases hs : s.isQualified with
  | true => rw [qualify_of_qualified hs]
  | false =>
    rw [h.qualify_of_bare hs]
    dsimp only
    by_cases hname : name = ""
    · -- In a namespace without a name the full name is bare as well, so the thread is asked again.
      have hsame : s.inNamespace name = s := by
        rw [hname]
        exact Symbol.bare_name hs
      rw [hsame, findVar_again h.lt hs]
    · -- The namespace of the thread stands in the registry under its own name.
      obtain ⟨k, hk, hfound, rfl⟩ := h.current
      have hfull : (s.inNamespace k.name).isQualified = true := by
        simpa [Symbol.isQualified, Symbol.inNamespace] using hname
      have hkept : (w.threadState here).2.findNamespace? here.registry (s.inNamespace k.name).ns = some k :=
        (w.keeps_threadState here).find hfound
      rw [findVar_of_qualified hfull, findVar_of_bare hs, hk, hkept]
      rfl

/-- Every symbol is looked up with success, whether there is a var or not. -/
theorem findVar_ok (s : Symbol) : ∃ found, (w.findVar here s).1 = .ok found := by
  cases hs : s.isQualified with
  | true => exact ⟨_, congrArg Prod.fst (findVar_of_qualified hs)⟩
  | false =>
    obtain ⟨k, hk, -⟩ := h.current
    rw [findVar_of_bare hs, hk]
    exact ⟨_, rfl⟩

/-- The full name of a bare symbol can be interned, unless it is bare as well. -/
theorem internVar_full (hs : s.isQualified = false) (hq : w.qualify here s = (.ok q, u))
    (hqualified : q.isQualified = true) : ∃ v x, u.internVar here.registry q = (.ok v, x) := by
  obtain ⟨k, -, hfound, -⟩ := h.current
  rw [h.qualify_of_bare hs] at hq
  obtain ⟨hname, rfl⟩ := Prod.mk.inj hq
  obtain rfl := Except.ok.inj hname
  have hkept := (w.keeps_threadState here).find hfound
  exact ⟨_, _, World.internVar_of_find _ here.registry hqualified hkept⟩

end World.StandsIn

/-! ## Vars that have been interned -/

/-- A thread is still where it was when a symbol has been given its full name. -/
theorem World.Settled.undisturbed_qualify (h : w.Settled) (s : Symbol) : w.Undisturbed (w.qualify here s).2 := by
  unfold World.qualify
  split
  · exact h.undisturbed_self
  · exact h.undisturbed_threadState here

namespace World.Settled

variable (h : w.Settled) (hplace : w.StandsIn here name)
include h hplace

/-- What is interned under the full name of a symbol is found by the symbol, and by its full name. -/
theorem findVar_interned (hq : w.qualify here s = (.ok q, u)) (hv : u.internVar here.registry q = (.ok v, x)) :
    (x.findVar here s).1 = .ok (some v) ∧ (x.findFully here s).1 = .ok (some v) := by
  have hu : w.Undisturbed u := by
    have hu : w.Undisturbed (w.qualify here s).2 := h.undisturbed_qualify s
    rwa [hq] at hu
  have hx : u.Undisturbed x := by
    have hx := (h.of_undisturbed hu).undisturbed_internVar here.registry q
    rwa [hv] at hx
  -- Neither giving the symbol its full name nor interning that moves the thread.
  have hstays := (hplace.undisturbed hu).undisturbed hx
  obtain ⟨hqualified, -, hstands⟩ := hu.registered.standsAt_internVar hv
  rw [hstays.findFully_eq s, and_self]
  cases hs : s.isQualified with
  | true =>
    rw [qualify_of_qualified hs] at hq
    obtain ⟨rfl, -⟩ : s = q ∧ w = u := by simpa using hq
    rw [hstands.findVar hs]
  | false =>
    obtain rfl := Except.ok.inj ((congrArg Prod.fst hq).symm.trans (hplace.qualify s hs))
    obtain ⟨k, hnames⟩ := hstays.names hstands
    have hfind := hnames.findVar
    rw [Symbol.bare_name hs] at hfind
    rw [hfind]

end World.Settled

/-! ## Definitions -/

theorem World.Registered.follows_meaning (hw : w.Registered) {depth : Nat} {form : Value} {e : Expr} {d : Desk}
    (h : Analysis.meaning here depth form ⟨w, T⟩ = .ok e d) : w.Follows d.world := by
  have hkept := w.following here
  exact hkept.of_analysis_ok (Lockstep.meaning (Nat.le_refl depth) T form (hkept.allows form)) hw.follows h

theorem World.Registered.follows_evaluate (hw : w.Registered) {depth : Nat} {locals : Locals} {e : Expr} {y : Value}
    (h : evaluate here depth locals e w = .ok y u) : w.Follows u :=
  (w.following here).of_evaluate_ok hw.follows h

theorem Names.reads {k : Namespace} (h : Names here n k v w) (hw : w.Registered) (hlocal : NotLocal n T) :
    ReadsVar here T w n v where
  meaning := h.meaning_name hlocal
  value {depth depth' locals y} hy := by
    have hroot : (w.threadState here).2.root v = some y :=
      (root_congr ((interns_threadState hw.toApart here).cell (h.var_lt hw))).trans hy
    have hanalyze : analyze here (depth + 1) T (.symbol (Symbol.bare n)) w =
        .ok (.root v) (w.threadState here).2 := by
      unfold analyze
      rw [run_map_of_ok (Analysis.inScopes_of_ok (h.meaning_name hlocal depth))]
    exact (run_bind_of_ok hanalyze).trans (evaluate_of_root hroot depth' locals)

/-- What a definition that defines no macro binds is read by its bare name. -/
theorem World.Registered.binds_defined (hw : w.Registered) (hplace : w.StandsIn here name) {S : List Scope}
    {form : Value} {e : Expr} {depth : Nat} {d : Desk} (hform : Defines n false form) (hdef : NotLocal "def" S)
    (hmeaning : Analysis.meaning here depth form ⟨w, S⟩ = .ok e d) :
    ∃ c v init, (w.currentNamespace here).1 = .ok c ∧ e = .define v (some init) none ∧
      BindsName here.registry c n v init d.world := by
  obtain ⟨c, hc, hfound, rfl⟩ := hplace.current
  obtain ⟨c', v, init, hc', -, rfl, hstands⟩ := hw.of_meaning_plain hform hdef hmeaning
  obtain rfl := Except.ok.inj (hc.symm.trans hc')
  have hanalysed : w.Follows d.world := hw.follows_meaning hmeaning
  refine ⟨c, v, init, hc, rfl, fun {u u' there depth locals y} hu hevaluate => ?_⟩
  obtain ⟨k, x, t, hx, rfl, rfl⟩ := of_evaluate_define hevaluate
  -- The value is evaluated before the var is bound, in a world that has the var already.
  have ht : u.Follows t := hu.registered.follows_evaluate hx
  have hthere := (hstands.keeps hu.keeps).keeps ht.keeps
  refine ⟨rfl, k, x, t, hx, rfl, root_setRoot_of_lt (hthere.var_lt ht.registered) x, ?_⟩
  intro z site T hz hsite hcurrent hlocal
  -- By then the registry has the namespace and the var still, and under the same names.
  have hkeeps := (hu.keeps.trans (ht.keeps.trans (t.keeps_setRoot v x))).trans hz.keeps
  have hplace' : z.StandsIn site c.name :=
    .of_current hcurrent (hsite ▸ (hanalysed.keeps.trans hkeeps).find hfound)
  obtain ⟨k, hnames⟩ := hplace'.names (hsite ▸ hstands.keeps hkeeps)
  exact hnames.reads hz.registered hlocal

/-- Whatever threads have done in registries and their copies, without binding the vars by which threads have their
current namespaces: a thread looks up a symbol and its full name with the same success; what it interns under the
full name is found both ways, and for a bare symbol this fails only where the current namespace has no name; and
what a definition of a bare name binds is what the bare name reads, then and ever after, as long as the current
namespace is the one in which the definition has been analysed. -/
theorem lookups_agree (h : m.Arises) (hr : here.registry < m.world.registries.size) :
    (∀ s, m.world.findFully here s = m.world.findVar here s ∧ ∃ found, (m.world.findVar here s).1 = .ok found) ∧
      (∀ {s q u}, m.world.qualify here s = (.ok q, u) →
        (∀ {v x}, u.internVar here.registry q = (.ok v, x) →
          (x.findVar here s).1 = .ok (some v) ∧ (x.findFully here s).1 = .ok (some v)) ∧
        (s.isQualified = false → q.isQualified = true → ∃ v x, u.internVar here.registry q = (.ok v, x))) ∧
      ∀ {n form S depth e d}, Defines n false form → NotLocal "def" S →
        Analysis.meaning here depth form ⟨m.world, S⟩ = .ok e d →
          ∃ c v init, (m.world.currentNamespace here).1 = .ok c ∧ e = .define v (some init) none ∧
            BindsName here.registry c n v init d.world := by
  have hsettled := h.placed.settled
  have hplace := h.placed.standsIn hr
  refine ⟨fun s => ⟨hplace.findFully_eq s, hplace.findVar_ok s⟩, fun {s q u} hq => ⟨?_, ?_⟩, ?_⟩
  · exact hsettled.findVar_interned hplace hq
  · exact fun hs hqualified => hplace.internVar_full hs hq hqualified
  · exact hsettled.toRegistered.binds_defined hplace

namespace Lookup

/-- A thread of a copy, where it has gone to the namespace `a`. -/
def crew : Crew :=
  List.foldl Crew.after Crew.start [.create 0 10 false, .copy 0 0,
    .begin 5 1 (.switchNamespace "a") (.switching "a"), .go 5, .go 5, .go 5]

def site : Site := ⟨1, 5⟩

theorem arises : crew.Arises := by
  have h := Crew.Arises.start.after (.create 0 10 false) trivial
  have h := h.after (.copy 0 0) trivial
  have h := h.begin (Course.switching_switchNamespace site "a")
  have h := h.go (t := 5) (by cbv)
  have h := h.go (t := 5) (by cbv)
  exact h.go (t := 5) (by cbv)

/-- The form `(def x 1)`. -/
def form : Value := .list 100 [.symbol (Symbol.bare "def"), .symbol (Symbol.bare "x"), .int 1]

/-- What it is analysed to, with the first var of the namespace. -/
def expr : Expr := .define ⟨11, ⟨"a", "x"⟩⟩ (some (.const (.int 1))) none

/-- The world after its analysis. -/
def analysed : World := crew.world.after (.analyze site 20 [] form)

/-- The world after its evaluation. -/
def defined : World := (evaluate site 20 [] expr).after analysed

/-- The world in which `a/y` has been interned instead. -/
def interned : World := crew.world.after (.internVar 1 ⟨"a", "y"⟩)

end Lookup

open Lookup in
/-- A name that nobody has interned is found in neither way, and in both ways when it has been interned; and `x` is
1 after its definition. -/
theorem lookups_agree_inCopy :
    crew.Arises ∧ crew.world.findFully site (Symbol.bare "y") = crew.world.findVar site (Symbol.bare "y") ∧
      (crew.world.findVar site (Symbol.bare "y")).1 = .ok none ∧
      (interned.findVar site (Symbol.bare "y")).1 = .ok (some ⟨11, ⟨"a", "y"⟩⟩) ∧
      (interned.findFully site (Symbol.bare "y")).1 = .ok (some ⟨11, ⟨"a", "y"⟩⟩) ∧
      (analyze site 20 [] (.symbol (Symbol.bare "x")) >>= evaluate site 20 []) defined =
        .ok (.int 1) (defined.threadState site).2 := by
  have hmade : site.registry < crew.world.registries.size := by
    have hsize : crew.world.registries.size = 2 := by cbv
    rw [hsize]
    decide
  obtain ⟨hagree, hinterned, hdefined⟩ := lookups_agree arises hmade
  have hq : crew.world.qualify site (Symbol.bare "y") = (.ok ⟨"a", "y"⟩, crew.world) := by cbv
  have hv : crew.world.internVar site.registry ⟨"a", "y"⟩ = (.ok ⟨11, ⟨"a", "y"⟩⟩, interned) := by cbv
  obtain ⟨hbare, hfull⟩ := (hinterned hq).1 hv
  have hmeaning : Analysis.meaning site 20 form ⟨crew.world, []⟩ = .ok expr ⟨analysed, []⟩ := by cbv
  have hevaluate : evaluate site 20 [] expr analysed = .ok (.var ⟨11, ⟨"a", "x"⟩⟩) defined := by cbv
  have hanalysed := arises.placed.settled.follows_meaning hmeaning
  have hevaluated := hanalysed.registered.follows_evaluate hevaluate
  obtain ⟨c, v, init, hc, he, hbinds⟩ := hdefined (.plain _ _) (notLocal_nil _) hmeaning
  cases he
  obtain ⟨-, d, y, t, -, -, -, hlater⟩ := hbinds hanalysed.registered.follows hevaluate
  have hcurrent : (defined.currentNamespace site).1 = .ok c := by
    rw [← hc]
    cbv
  have hread := hlater hevaluated.registered.follows rfl hcurrent (notLocal_nil _)
  exact ⟨arises, (hagree _).1, by cbv, hbare, hfull, hread.value (by cbv)⟩

end SmallLisp
