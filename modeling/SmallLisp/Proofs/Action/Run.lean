import SmallLisp.Analysis

/-!
# Runs of composed computations

What a run of a composed computation says about the runs of its parts, and the other way round. A symbol that
stands for a var is the shortest such run: it is looked up, and the root of the var is its value.
-/

namespace SmallLisp

variable {σ α β : Type} {a : EStateM Halt σ α} {f : α → EStateM Halt σ β} {s t : σ}

/-- A computation goes on from where its first part has succeeded. -/
theorem run_bind_of_ok {x : α} (h : a s = .ok x t) : (a >>= f) s = f x t := by
  show EStateM.bind a f s = f x t
  unfold EStateM.bind
  rw [h]

/-- A computation fails where its first part has failed. -/
theorem run_bind_of_error {e : Halt} (h : a s = .error e t) : (a >>= f) s = .error e t := by
  show EStateM.bind a f s = .error e t
  unfold EStateM.bind
  rw [h]

/-- What follows depends only on how the first part has ended. -/
theorem run_bind_congr {a' : EStateM Halt σ α} (h : a s = a' t) : (a >>= f) s = (a' >>= f) t := by
  show EStateM.bind a f s = EStateM.bind a' f t
  unfold EStateM.bind
  rw [h]

/-- A computation succeeds only after its first part. -/
theorem of_run_bind_ok {y : β} (h : (a >>= f) s = .ok y t) :
    ∃ x u, a s = .ok x u ∧ f x u = .ok y t := by
  replace h : EStateM.bind a f s = .ok y t := h
  unfold EStateM.bind at h
  cases ha : a s with
  | ok x u =>
    rw [ha] at h
    exact ⟨x, u, rfl, h⟩
  | error e u =>
    rw [ha] at h
    cases h

/-- A computation fails in its first part, or after it. -/
theorem of_run_bind_error {e : Halt} (h : (a >>= f) s = .error e t) :
    a s = .error e t ∨ ∃ x u, a s = .ok x u ∧ f x u = .error e t := by
  replace h : EStateM.bind a f s = .error e t := h
  unfold EStateM.bind at h
  cases ha : a s with
  | ok x u =>
    rw [ha] at h
    exact .inr ⟨x, u, rfl, h⟩
  | error e' u =>
    rw [ha] at h
    cases h
    exact .inl rfl

/-- A value that is only reshaped. -/
theorem run_map_of_ok {g : α → β} {x : α} (h : a s = .ok x t) : (g <$> a) s = .ok (g x) t := by
  show EStateM.map g a s = .ok (g x) t
  unfold EStateM.map
  rw [h]

theorem run_map_of_error {g : α → β} {e : Halt} (h : a s = .error e t) : (g <$> a) s = .error e t := by
  show EStateM.map g a s = .error e t
  unfold EStateM.map
  rw [h]

theorem of_run_map_ok {g : α → β} {y : β} (h : (g <$> a) s = .ok y t) :
    ∃ x, a s = .ok x t ∧ g x = y := by
  replace h : EStateM.map g a s = .ok y t := h
  unfold EStateM.map at h
  cases ha : a s with
  | ok x u =>
    rw [ha] at h
    cases h
    exact ⟨x, rfl, rfl⟩
  | error e u =>
    rw [ha] at h
    cases h

theorem of_run_map_error {g : α → β} {e : Halt} (h : (g <$> a) s = .error e t) : a s = .error e t := by
  replace h : EStateM.map g a s = .error e t := h
  unfold EStateM.map at h
  cases ha : a s with
  | ok x u =>
    rw [ha] at h
    cases h
  | error e' u =>
    rw [ha] at h
    cases h
    rfl

section Attempt

variable {α ε : Type} {wrap : ε → Error} {f : World → Except ε α × World} {w u : World} {x : α}

theorem attempt_of_ok (h : f w = (.ok x, u)) : Action.attempt wrap f w = .ok x u := by
  unfold Action.attempt
  rw [h]

/-- An attempt that succeeds has found a value. -/
theorem of_attempt_ok (h : Action.attempt wrap f w = .ok x u) : f w = (.ok x, u) := by
  unfold Action.attempt at h
  split at h
  · rename_i y v hf
    cases h
    exact hf
  · cases h

end Attempt

namespace Analysis

/-- An action runs on the world of the desk. -/
theorem act_of_ok {b : Action α} {w u : World} {S : List Scope} {x : α} (h : b w = .ok x u) :
    act b ⟨w, S⟩ = .ok x ⟨u, S⟩ := by
  unfold act
  dsimp only
  rw [h]

/-- An action that succeeds on a desk has succeeded on its world. -/
theorem of_act_ok {b : Action α} {w : World} {S : List Scope} {x : α} {d : Desk}
    (h : act b ⟨w, S⟩ = .ok x d) : ∃ u, b w = .ok x u ∧ d = ⟨u, S⟩ := by
  unfold act at h
  dsimp only at h
  split at h
  · rename_i y u hb
    cases h
    exact ⟨u, hb, rfl⟩
  · cases h

section Desks

variable {a : Analysis α} {w : World} {S : List Scope} {d : Desk}

theorem inScopes_of_ok {x : α} (h : a ⟨w, S⟩ = .ok x d) : a.inScopes S w = .ok (x, d.scopes) d.world := by
  unfold inScopes
  rw [h]

theorem inScopes_of_error {e : Halt} (h : a ⟨w, S⟩ = .error e d) : a.inScopes S w = .error e d.world := by
  unfold inScopes
  rw [h]

end Desks

end Analysis

/-! ## A symbol that stands for a var -/

section Symbols

variable {here : Site} {w u : World} {s : Symbol} {v : Var}

theorem resolve_of_findVar (h : w.findVar here s = (.ok (some v), u)) :
    Analysis.resolve here s w = .ok (some v) u := by
  unfold Analysis.resolve
  rw [run_bind_of_ok (attempt_of_ok h)]
  rfl

/-- A symbol that is no local name means the var that it names. -/
theorem meaning_of_findVar {S : List Scope} (hlocal : Analysis.isLocal s ⟨w, S⟩ = .ok false ⟨w, S⟩)
    (h : w.findVar here s = (.ok (some v), u)) (depth : Nat) :
    Analysis.meaning here (depth + 1) (.symbol s) ⟨w, S⟩ = .ok (.root v) ⟨u, S⟩ :=
  (run_bind_of_ok hlocal).trans (run_bind_of_ok (Analysis.act_of_ok (resolve_of_findVar h)))

theorem evaluate_of_root {y : Value} (h : w.root v = some y) (depth : Nat) (locals : Locals) :
    evaluate here (depth + 1) locals (.root v) w = .ok y w := by
  have hview : Action.view (·.root v) w = .ok (some y) w := congrArg (EStateM.Result.ok · w) h
  simp only [evaluate]
  exact run_bind_of_ok hview

end Symbols

end SmallLisp
