import SmallLisp.Proofs.Analysis.Lockstep
import SmallLisp.Session

/-!
# Sessions in lockstep

A text is read, analysed and evaluated alike in related worlds (`Lockstep.evalText`). Between two of
its forms no scope is open.
-/

namespace SmallLisp.Lockstep

variable {here : Site} {L : Lockstep here} {β : Type} {P : β → Prop} {d d' : Nat}

theorem take_steps (lexemes : List Lexeme) :
    L.Steps (fun r => L.AllowsResult r.1) (Action.update (Reader.take · here lexemes))
      (Action.update (Reader.take · here lexemes)) :=
  update (take lexemes)

/-- What is done with each form may rely on what the forms before it have left. -/
theorem foldUpTo (hreads : L.reads) {f g : β → Value → Action β}
    (h : ∀ b v, P b → L.Allows v → L.Steps P (f b v) (g b v)) (count : Nat) (lexemes : List Lexeme)
    {b : β} (hb : P b) :
    L.Steps P (Reader.foldUpTo here f count lexemes b) (Reader.foldUpTo here g count lexemes b) := by
  induction count generalizing lexemes b with
  | zero => exact pure hb
  | succ count ih =>
    refine bind (take_steps lexemes) fun r hr => ?_
    split
    · exact pure hb
    · exact fail (hr.2 _ rfl) fun _ _ => hreads
    · exact bind (h b _ hb (hr.1 _ rfl)) fun b hb => ih _ hb

/-- A form is evaluated alike, and leaves no scope open. -/
theorem evalForm (h : d ≤ d') {v : Value} (hv : L.Allows v) :
    L.Steps (fun r => L.Allows r.1 ∧ r.2 = []) (Session.evalForm here d [] v)
      (Session.evalForm here d' [] v) := by
  refine bind (inScopes (meaning h [] v hv)) fun r hr => ?_
  obtain ⟨e, scopes⟩ := r
  obtain ⟨he, rfl⟩ := hr
  have hsound : L.SoundAt [] e := ⟨he, nofun⟩
  exact bind (evaluate h hsound) fun x hx => pure ⟨hx, rfl⟩

/-- No scope is open, and the value of the form before may be used. -/
structure Settled (L : Lockstep here) (p : Session.Progress) : Prop where
  /-- No scope is open. -/
  scopes : p.scopes = []
  /-- The last value. -/
  last : ∀ v, p.last = some v → L.Allows v

theorem settled_start : L.Settled .start := ⟨rfl, nofun⟩

theorem evalNext (h : d ≤ d') (p : Session.Progress) (v : Value) (hp : L.Settled p)
    (hv : L.Allows v) :
    L.Steps L.Settled (Session.evalNext here d p v) (Session.evalNext here d' p v) := by
  unfold Session.evalNext
  rw [hp.scopes]
  refine bind (evalForm h hv) fun r hr => pure ⟨hr.2, ?_⟩
  rintro _ ⟨⟩
  exact hr.1

/-- The forms of a text are evaluated alike, whichever are the first lexemes. -/
theorem evalLexemes (hreads : L.reads) (h : d ≤ d') (count : Nat) (lexemes : List Lexeme)
    {p : Session.Progress} (hp : L.Settled p) :
    L.Steps L.Settled (Reader.foldUpTo here (Session.evalNext here d) count lexemes p)
      (Reader.foldUpTo here (Session.evalNext here d') count lexemes p) :=
  foldUpTo hreads (evalNext h) count lexemes hp

/-- The forms of a text are evaluated alike, from its start. -/
theorem fold_start (hreads : L.reads) (h : d ≤ d') (text : String) :
    L.Steps L.Settled (Reader.fold here (Session.evalNext here d) text .start)
      (Reader.fold here (Session.evalNext here d') text .start) :=
  evalLexemes hreads h _ _ settled_start

/-- A text is evaluated alike. -/
theorem evalText (hreads : L.reads) (h : d ≤ d') (text : String) :
    L.Steps (fun last => ∀ v, last = some v → L.Allows v) (Session.evalText here d text)
      (Session.evalText here d' text) :=
  map (Steps.mono (fold_start hreads h text) fun _ hp => hp.last)

end SmallLisp.Lockstep
