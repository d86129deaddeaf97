import SmallLisp.Proofs.Action.Invariant
import SmallLisp.Proofs.Session.Lockstep
import SmallLisp.World.Copy

/-!
# Reachable worlds

The worlds that can come about: from the empty one by making registries, copying them, running programs
in them on any threads, and by what a host can do to a registry from outside. The order is free, and a
program that fails leaves its traces as one that succeeds. What programs keep at every site, and the making
and copying of registries too, holds in all of them (`Kept.reachable`).
-/

namespace SmallLisp

/-- Something that is done to a world. -/
inductive Event where
  /-- A registry is made on a thread. -/
  | create (thread : ThreadId) (expansionLimit : Nat)
  /-- A registry gets the standard library. -/
  | library (r : RegistryId)
  /-- A registry is copied. -/
  | copy (r : RegistryId)
  /-- A text is evaluated. -/
  | eval (here : Site) (depth : Nat) (text : String)
  /-- A form is analysed and the expression is dropped. -/
  | analyze (here : Site) (depth : Nat) (scopes : List Scope) (form : Value)
  /-- A value is called. -/
  | call (here : Site) (depth : Nat) (f : Value) (args : List Value)
  /-- The next form of some lexemes is read. -/
  | read (here : Site) (lexemes : List Lexeme)
  /-- A namespace is interned. -/
  | internNamespace (r : RegistryId) (name : String)
  /-- A var is interned. -/
  | internVar (r : RegistryId) (s : Symbol)
  /-- A keyword is interned. -/
  | internKeyword (r : RegistryId) (s : Symbol)
  /-- A thread begins to use a registry. -/
  | useThread (here : Site)
  /-- A namespace is made current. -/
  | switchNamespace (here : Site) (name : String)
  /-- A name is generated. -/
  | uniqueName (stem : String)
  /-- A var is bound. -/
  | setRoot (v : Var) (value : Value)
  /-- A var gets metadata. -/
  | setMetadata (v : Var) (metadata : Value)

/-- The world after an event. -/
def World.after (w : World) : Event → World
  | .create thread limit => (w.newRegistry thread limit).2
  | .library r => w.addStandardLibrary r
  | .copy r => (w.copyRegistry r).2
  | .eval here depth text => (Session.evalText here depth text).after w
  | .analyze here depth scopes form => ((Analysis.meaning here depth form).inScopes scopes).after w
  | .call here depth f args => (apply here depth f args).after w
  | .read here lexemes => (Reader.take w here lexemes).2
  | .internNamespace r name => (w.internNamespace r name).2
  | .internVar r s => (w.internVar r s).2
  | .internKeyword r s => (w.internKeyword r s).2
  | .useThread here => (w.threadState here).2
  | .switchNamespace here name => (w.switchNamespace here name).2
  | .uniqueName stem => (w.uniqueName stem).2
  | .setRoot v value => w.setRoot v value
  | .setMetadata v metadata => w.setMetadata v metadata

/-- A world that can come about. -/
inductive Reachable : World → Prop
  /-- Before anything is made. -/
  | empty : Reachable World.empty
  /-- After an event. -/
  | after {w : World} (h : Reachable w) (e : Event) : Reachable (w.after e)

namespace Kept

variable {strict : Prop} {Holds : World → Prop} {w : World}

/-- What is kept at a site is kept when a namespace is made current there. -/
theorem switchNamespace {here : Site} (h : Kept here strict Holds) (hw : Holds w) (name : String) :
    Holds (w.switchNamespace here name).2 :=
  h.setRoot (h.threadState (h.internNamespace hw name)) _ _

/-- What is kept at every site, and when registries are made, is kept by every event. -/
theorem after (h : ∀ here, Kept here strict Holds)
    (create : ∀ {w}, Holds w → ∀ thread limit, Holds (w.newRegistry thread limit).2)
    (library : ∀ {w}, Holds w → ∀ r, Holds (w.addStandardLibrary r))
    (copy : ∀ {w}, Holds w → ∀ r, Holds (w.copyRegistry r).2) (hw : Holds w) (e : Event) :
    Holds (w.after e) := by
  cases e <;> simp only [World.after]
  case create thread limit => exact create hw thread limit
  case library r => exact library hw r
  case copy r => exact copy hw r
  case eval here depth text =>
    exact (h here).invariant.after (Lockstep.evalText trivial (Nat.le_refl depth) text) hw
  case analyze here depth scopes form =>
    have hm : (h here).invariant.lockstep.Analyses scopes _ _ _ :=
      Lockstep.meaning (Nat.le_refl depth) scopes form ((h here).allows form)
    exact (h here).invariant.after (Lockstep.inScopes hm) hw
  case call here depth f args =>
    exact (h here).invariant.after
      (Lockstep.apply (Nat.le_refl depth) ((h here).allows f) ((h here).allowsAll args)) hw
  case read here lexemes => exact (h here).invariant.after (Lockstep.take_steps lexemes) hw
  case internNamespace r name => exact (h ⟨r, 0⟩).internNamespace hw name
  case internVar r s => exact (h ⟨r, 0⟩).internVar hw s
  case internKeyword r s => exact (h ⟨r, 0⟩).internKeyword hw s
  case useThread here => exact (h here).threadState hw
  case switchNamespace here name => exact (h here).switchNamespace hw name
  case uniqueName stem => exact (h ⟨0, 0⟩).uniqueName hw stem
  case setRoot v x => exact (h ⟨0, 0⟩).setRoot hw v x
  case setMetadata v x => exact (h ⟨0, 0⟩).setMetadata hw v x

/-- What holds in the empty world, and is kept at every site and when registries are made, holds in every
reachable world. -/
theorem reachable (h : ∀ here, Kept here strict Holds) (empty : Holds World.empty)
    (create : ∀ {w}, Holds w → ∀ thread limit, Holds (w.newRegistry thread limit).2)
    (library : ∀ {w}, Holds w → ∀ r, Holds (w.addStandardLibrary r))
    (copy : ∀ {w}, Holds w → ∀ r, Holds (w.copyRegistry r).2) (hw : Reachable w) : Holds w := by
  induction hw with
  | empty => exact empty
  | after _ e ih => exact after h create library copy ih e

end Kept

end SmallLisp
