import SmallLisp.World.Copy
import SmallLisp.World.Create

/-!
# The functions of a world

Functions are made by `World.newFunction` alone: everything else leaves the functions of the world as
they are.
-/

namespace SmallLisp.World

variable (w : World) (r : RegistryId)

@[simp] theorem closures_modifyRegistry (f : Registry → Registry) :
    (w.modifyRegistry r f).closures = w.closures := rfl

@[simp] theorem closures_uniqueName (stem : String) :
    (w.uniqueName stem).2.closures = w.closures := rfl

@[simp] theorem closures_setRoot (v : Var) (x : Value) : (w.setRoot v x).closures = w.closures := rfl

@[simp] theorem closures_setMetadata (v : Var) (x : Value) :
    (w.setMetadata v x).closures = w.closures := rfl

@[simp] theorem closures_newPrivateVar (owner : Namespace) (name : Symbol) (root : Option Value) :
    (w.newPrivateVar owner name root).2.closures = w.closures := rfl

@[simp] theorem closures_internNamespace (name : String) :
    (w.internNamespace r name).2.closures = w.closures := by
  unfold internNamespace
  split <;> rfl

@[simp] theorem closures_internCore : (w.internCore r).2.closures = w.closures :=
  w.closures_internNamespace r coreName

@[simp] theorem closures_internVarIn (n : Namespace) (s : Symbol) :
    (w.internVarIn n s).2.closures = w.closures := by
  unfold internVarIn
  split <;> rfl

@[simp] theorem closures_internVar (s : Symbol) :
    (w.internVar r s).2.closures = w.closures := by
  unfold internVar
  split
  · split
    · exact w.closures_internVarIn _ _
    · rfl
  · rfl

@[simp] theorem closures_internKeyword (s : Symbol) :
    (w.internKeyword r s).2.closures = w.closures := by
  unfold internKeyword
  split <;> rfl

@[simp] theorem closures_threadStateFrom (here : Site) (first : ThreadState) :
    (w.threadStateFrom here first).2.closures = w.closures := by
  unfold threadStateFrom
  split <;> rfl

@[simp] theorem closures_defaultThreadState :
    (w.defaultThreadState r).2.closures = w.closures := by
  simp [defaultThreadState]

@[simp] theorem closures_threadState (here : Site) :
    (w.threadState here).2.closures = w.closures := by
  unfold threadState
  split <;> simp

@[simp] theorem closures_switchNamespace (here : Site) (name : String) :
    (w.switchNamespace here name).2.closures = w.closures := by
  simp [switchNamespace]

@[simp] theorem closures_defineNative (f : Native) :
    (w.defineNative r f).closures = w.closures := by
  simp [defineNative]

theorem closures_defineNatives (fs : List Native) :
    (fs.foldl (·.defineNative r ·) w).closures = w.closures := by
  induction fs generalizing w with
  | nil => rfl
  | cons f fs ih => rw [List.foldl_cons, ih, closures_defineNative]

@[simp] theorem closures_addStandardLibrary : (w.addStandardLibrary r).closures = w.closures :=
  w.closures_defineNatives r _

@[simp] theorem closures_newRegistry (thread : ThreadId) (limit : Nat) :
    (w.newRegistry thread limit).2.closures = w.closures := by
  simp [newRegistry, closures_defineNatives]

@[simp] theorem closures_copyNamespace (n : Namespace) :
    (w.copyNamespace n).2.closures = w.closures := rfl

@[simp] theorem closures_copyNamespaces (namespaces : List (String × Namespace)) :
    (w.copyNamespaces namespaces).2.closures = w.closures := by
  induction namespaces generalizing w with
  | nil => rfl
  | cons n rest ih => simp [copyNamespaces, ih]

@[simp] theorem closures_copyThreadState (copies : List (String × Namespace))
    (state : ThreadState) : (w.copyThreadState copies state).2.closures = w.closures := by
  unfold copyThreadState
  dsimp only
  split <;> split <;> simp

@[simp] theorem closures_copyThreads (copies : List (String × Namespace))
    (threads : List (ThreadId × ThreadState)) :
    (w.copyThreads copies threads).2.closures = w.closures := by
  induction threads generalizing w with
  | nil => rfl
  | cons t rest ih => simp [copyThreads, ih]

@[simp] theorem closures_copyRegistry : (w.copyRegistry r).2.closures = w.closures := by
  simp [copyRegistry]

end SmallLisp.World
