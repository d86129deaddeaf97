import SmallLisp.Action

/-!
# Two computations side by side

`Together pre a b post exit` compares the runs of two computations from states that `pre` relates. If
the first one has a value, so has the second one, the same, and `post` relates the states after them;
if the first one fails, the second one fails in the same way, and `exit` relates the states. Where the
first one runs out of depth, nothing is said of the second one, which may have been given more; only
the state that the first one stops in is bounded, by `exit` too.

A property that every run keeps is the case of one computation beside itself in one and the same
state. The rules go by the way a computation is composed.
-/

namespace SmallLisp

variable {σ α β : Type}

/-- How two runs end together. -/
inductive EndTogether (post : α → σ → σ → Prop) (exit : Halt → σ → σ → Prop) :
    EStateM.Result Halt σ α → EStateM.Result Halt σ α → Prop
  /-- Both with the same value. -/
  | ok {x : α} {s t : σ} (h : post x s t) : EndTogether post exit (.ok x s) (.ok x t)
  /-- Both with the same error. -/
  | error {e : Error} {s t : σ} (h : exit (.error e) s t) :
    EndTogether post exit (.error (.error e) s) (.error (.error e) t)
  /-- The first one short of depth, the second one anyhow. -/
  | outOfDepth {s t : σ} {r : EStateM.Result Halt σ α} (h : exit .outOfDepth s t) :
    EndTogether post exit (.error .outOfDepth s) r

/-- From states that are related, the two computations end together. -/
def Together (pre : σ → σ → Prop) (a b : EStateM Halt σ α) (post : α → σ → σ → Prop)
    (exit : Halt → σ → σ → Prop) : Prop :=
  ∀ s t, pre s t → EndTogether post exit (a s) (b t)

namespace EndTogether

variable {post post' : α → σ → σ → Prop} {exit exit' : Halt → σ → σ → Prop}

/-- Less can be said of the ends. -/
theorem mono {r r' : EStateM.Result Halt σ α} (h : EndTogether post exit r r')
    (hpost : ∀ x s t, post x s t → post' x s t) (hexit : ∀ e s t, exit e s t → exit' e s t) :
    EndTogether post' exit' r r' := by
  cases h with
  | ok h => exact .ok (hpost _ _ _ h)
  | error h => exact .error (hexit _ _ _ h)
  | outOfDepth h => exact .outOfDepth (hexit _ _ _ h)

end EndTogether

namespace Together

variable {pre : σ → σ → Prop} {post : α → σ → σ → Prop} {exit : Halt → σ → σ → Prop}

/-- More can be asked of the beginnings, and less said of the ends. -/
theorem mono {pre' : σ → σ → Prop} {post' : α → σ → σ → Prop} {exit' : Halt → σ → σ → Prop}
    {a b : EStateM Halt σ α} (h : Together pre a b post exit) (hpre : ∀ s t, pre' s t → pre s t)
    (hpost : ∀ x s t, post x s t → post' x s t) (hexit : ∀ e s t, exit e s t → exit' e s t) :
    Together pre' a b post' exit' :=
  fun s t hst => (h s t (hpre s t hst)).mono hpost hexit

theorem pure {x : α} (h : ∀ s t, pre s t → post x s t) :
    Together pre (Pure.pure x) (Pure.pure x) post exit :=
  fun s t hst => .ok (h s t hst)

theorem bind {mid : α → σ → σ → Prop} {post : β → σ → σ → Prop} {a b : EStateM Halt σ α}
    {f g : α → EStateM Halt σ β} (h : Together pre a b mid exit)
    (hf : ∀ x, Together (mid x) (f x) (g x) post exit) :
    Together pre (a >>= f) (b >>= g) post exit := by
  intro s t hst
  have hab := h s t hst
  show EndTogether post exit (EStateM.bind a f s) (EStateM.bind b g t)
  unfold EStateM.bind
  cases ha : a s with
  | ok x s' =>
    cases hb : b t with
    | ok y t' =>
      rw [ha, hb] at hab
      obtain hm | _ | _ := hab
      exact hf x s' t' hm
    | error e t' =>
      rw [ha, hb] at hab
      cases hab
  | error e s' =>
    rw [ha] at hab
    cases hr : b t <;> rw [hr] at hab
    · cases hab with
      | outOfDepth hx => exact .outOfDepth hx
    · cases hab with
      | error hx => exact .error hx
      | outOfDepth hx => exact .outOfDepth hx

/-- A value that is only reshaped. -/
theorem map {post : β → σ → σ → Prop} {a b : EStateM Halt σ α} {f : α → β}
    (h : Together pre a b (fun x => post (f x)) exit) :
    Together pre (f <$> a) (f <$> b) post exit := by
  rw [← bind_pure_comp, ← bind_pure_comp]
  exact bind h fun x => pure fun _ _ hp => hp

end Together

end SmallLisp
