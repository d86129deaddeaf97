import SmallLisp.World.Thread

/-!
# New registries

A new registry has the core namespace, in it the var of the current namespace and the natives that
every registry has, and the state of the thread that made it, whose current namespace is held by
that var. The standard library adds the other natives.
-/

namespace SmallLisp.World

/-- Enters a native function in the core namespace under its name. -/
def defineNative (w : World) (r : RegistryId) (f : Native) : World :=
  let (core, w) := w.internCore r
  let (v, w) := w.internVarIn core (coreSymbol f.name)
  w.setRoot v (.native f)

/-- Enters the natives of the standard library. -/
def addStandardLibrary (w : World) (r : RegistryId) : World :=
  Native.standardLibrary.foldl (·.defineNative r ·) w

/-- Makes a registry on a thread. -/
def newRegistry (w : World) (thread : ThreadId) (expansionLimit : Nat) : RegistryId × World :=
  let r := w.registries.size
  let w := { w with registries := w.registries.push ⟨[], [], [], expansionLimit⟩ }
  let (core, w) := w.internCore r
  let (current, w) := w.internVarIn core currentSymbol
  let w := w.setRoot current (.ns core)
  let (switch, w) := w.internVarIn core switchSymbol
  let (_, w) := w.threadStateFrom ⟨r, thread⟩ ⟨current, switch⟩
  (r, Native.core.foldl (·.defineNative r ·) w)

end SmallLisp.World
