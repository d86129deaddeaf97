import SmallLisp.Proofs.World.Growth

/-!
# Interning in sections

Several threads can use one registry. Each table has a lock of its own, and an operation that interns
holds it only for a short while: once to look for the name and, if it is not there, once more to look
again and to enter it. Other threads may come in between these `Sections`. Only a thread that begins to
use the registry keeps the lock of the table of threads while it interns what its state is made of.

Where no other thread comes in between, the sections of an operation together do what the operation does
(`Sections.run_internNamespace` and so on).
-/

namespace SmallLisp

/-- What a section does with the lock of the table of threads. All other locks are taken and given back
within one section. -/
inductive Lock where
  /-- Nothing. -/
  | other
  /-- It takes the lock, and gives it back. -/
  | look
  /-- It takes the lock and keeps it. -/
  | enter
  /-- It gives back the lock that has been kept. -/
  | leave

/-- A computation in sections: each of them changes the world at once, and what follows depends on the
world that the section has found. -/
inductive Sections (α : Type) where
  | done (x : α)
  | step (lock : Lock) (effect : World → World) (next : World → Sections α)

namespace Sections

variable {α β : Type}

/-- One computation after the other. -/
def bind : Sections α → (α → Sections β) → Sections β
  | done x, f => f x
  | step lock effect next, f => step lock effect fun w => (next w).bind f

instance : Monad Sections where
  pure := done
  bind := bind

/-- A computation of one section. -/
def once (lock : Lock) (f : World → α × World) : Sections α :=
  step lock (fun w => (f w).2) fun w => done (f w).1

/-- A section that only looks. -/
def ask (f : World → α) : Sections α := once .other fun w => (f w, w)

/-- A name is looked for and, if it is not there, looked for once more and entered. -/
def intern (find : World → Option α) (make : World → α × World) : Sections α := do
  match ← ask find with
  | some x => pure x
  | none => once .other make

/-- The namespace of a name. -/
def internNamespace (r : RegistryId) (name : String) : Sections Namespace :=
  intern (·.findNamespace? r name) (·.internNamespace r name)

/-- The var of a namespace. -/
def internVarIn (n : Namespace) (s : Symbol) : Sections Var :=
  intern (·.findVarIn? n s) (·.internVarIn n s)

/-- The var that a symbol with a namespace part names. -/
def internVar (r : RegistryId) (s : Symbol) : Sections (Except InternFault Var) :=
  if s.isQualified then do
    match ← ask (·.findNamespace? r s.ns) with
    | some n =>
      let v ← internVarIn n s
      pure (.ok v)
    | none => pure (.error (.missingNamespace s))
  else pure (.error (.unqualified s))

/-- The keyword of a name. -/
def internKeyword (r : RegistryId) (s : Symbol) : Sections Keyword :=
  intern (fun w => (w.registry r).keywords.lookup s) (·.internKeyword r s)

/-- What the state of a thread is made of, and its entry in the table of threads. -/
def beginThread (here : Site) : Sections ThreadState := do
  let core ← internNamespace here.registry coreName
  let current ← once .other (·.newPrivateVar core currentSymbol (some (.ns core)))
  let switch ← internVarIn core switchSymbol
  let state : ThreadState := ⟨current, switch⟩
  once .leave fun w => (state, w.modifyRegistry here.registry (·.addThread here.thread state))

/-- The state of the running thread, which is looked for twice and made under the lock. -/
def threadState (here : Site) : Sections ThreadState := do
  match ← once .look fun w => (w.threadState? here, w) with
  | some state => pure state
  | none =>
    match ← once .enter fun w => (w.threadState? here, w) with
    | some state => once .leave fun w => (state, w)
    | none => beginThread here

/-- The keyword that is written with one colon, or with two. -/
def readKeyword (here : Site) (s : Symbol) (auto : Bool) : Sections (Except Error Keyword) := do
  if !auto then
    let k ← internKeyword here.registry s
    pure (.ok k)
  else if s.isQualified then pure (.error .aliasedKeyword)
  else
    let state ← threadState here
    match ← ask state.currentIn with
    | .ok n =>
      let k ← internKeyword here.registry (s.inNamespace n.name)
      pure (.ok k)
    | .error fault => pure (.error (.eval fault))

/-- A namespace is made current for the running thread. -/
def switchNamespace (here : Site) (name : String) : Sections Namespace := do
  let n ← internNamespace here.registry name
  let state ← threadState here
  once .other fun w => (n, w.setRoot state.current (.ns n))

/-! ## Without interruption -/

/-- The sections one after the other, with nothing in between. -/
def run : Sections α → World → α × World
  | done x, w => (x, w)
  | step _ effect next, w => (next w).run (effect w)

section

variable (w : World)

@[simp] theorem run_pure (x : α) : (pure x : Sections α).run w = (x, w) := rfl

@[simp] theorem run_once (lock : Lock) (f : World → α × World) : (once lock f).run w = f w := rfl

@[simp] theorem run_ask (f : World → α) : (ask f).run w = (f w, w) := rfl

@[simp] theorem run_bind (p : Sections α) (f : α → Sections β) :
    (p >>= f).run w = (f (p.run w).1).run (p.run w).2 := by
  induction p generalizing w with
  | done x => rfl
  | step lock effect next ih => exact ih w (effect w)

/-- Where a thing that is found is not made again, looking before making it makes no difference. -/
theorem run_intern {find : World → Option α} {make : World → α × World}
    (h : ∀ x, find w = some x → make w = (x, w)) : (intern find make).run w = make w := by
  unfold intern
  rw [run_bind, run_ask]
  cases hfind : find w with
  | some x => exact (h x hfind).symm
  | none => rfl

@[simp] theorem run_internNamespace (r : RegistryId) (name : String) :
    (internNamespace r name).run w = w.internNamespace r name :=
  run_intern w fun _ => w.internNamespace_of_find r

@[simp] theorem run_internVarIn (n : Namespace) (s : Symbol) : (internVarIn n s).run w = w.internVarIn n s :=
  run_intern w fun _ => w.internVarIn_of_find

@[simp] theorem run_internKeyword (r : RegistryId) (s : Symbol) :
    (internKeyword r s).run w = w.internKeyword r s :=
  run_intern w fun _ => w.internKeyword_of_lookup r

@[simp] theorem run_internVar (r : RegistryId) (s : Symbol) : (internVar r s).run w = w.internVar r s := by
  unfold internVar World.internVar
  split
  · rw [run_bind, run_ask]
    dsimp only
    cases w.findNamespace? r s.ns with
    | some n => simp only [run_bind, run_internVarIn, run_pure]
    | none => rfl
  · rfl

/-- A thread whose state is not found twice makes it. -/
@[simp] theorem run_threadState (here : Site) : (threadState here).run w = w.threadState here := by
  unfold threadState World.threadState
  rw [run_bind, run_once]
  dsimp only
  cases hstate : w.threadState? here with
  | some state => rfl
  | none =>
    dsimp only
    rw [run_bind, run_once]
    dsimp only
    rw [hstate]
    simp only [beginThread, run_bind, run_internNamespace, run_internVarIn, run_once]
    rfl

@[simp] theorem run_readKeyword (here : Site) (s : Symbol) (auto : Bool) :
    (readKeyword here s auto).run w = w.readKeyword here s auto := by
  unfold readKeyword World.readKeyword
  split
  · simp only [run_bind, run_internKeyword, run_pure]
  · split
    · rfl
    · unfold World.currentNamespace
      simp only [run_bind, run_threadState, run_ask]
      cases (w.threadState here).1.currentIn (w.threadState here).2 with
      | ok n => simp only [run_bind, run_internKeyword, run_pure]
      | error fault => rfl

@[simp] theorem run_switchNamespace (here : Site) (name : String) :
    (switchNamespace here name).run w = w.switchNamespace here name := by
  simp only [switchNamespace, run_bind, run_internNamespace, run_threadState, run_once]
  rfl

end

end Sections

end SmallLisp
