import SmallLisp.Proofs.Token.Boundary
import SmallLisp.Proofs.World.Informed
import SmallLisp.Reader.Progress

/-!
# The shape of a text

What a text leaves open is a matter of its tokens alone: brackets, quote marks, or a string at its end
(`Shape.after`). The reader agrees: where the running thread has a current namespace, a token leads to a
complete form, to open frames or to a fault as the shape says (`Reader.shape_step`). So the forms of a text can
be told without a world (`Forms`), and folding over two texts one after the other is folding over both, if
the first one leaves nothing open (`Reader.foldUpTo_append`).
-/

namespace SmallLisp

/-- Something open, of which only the number of items inside it is kept. -/
inductive Slot where
  /-- A quote mark. -/
  | quote
  /-- A bracket and how many items are inside it so far. -/
  | group (b : Bracket) (items : Nat)
  /-- A string that lacks its closing quote. -/
  | string

/-- What is open, the innermost first. -/
abbrev Shape := List Slot

namespace Shape

/-- Hands a complete form to what is open around it. -/
def supply : Shape → Shape
  | [] => []
  | .quote :: s => supply s
  | .group b items :: s => .group b (items + 1) :: s
  | .string :: s => .string :: s

/-- Closes a bracket with this many items inside it. -/
def close (b : Bracket) (items : Nat) (s : Shape) : Option Shape :=
  if b = .curly ∧ items % 2 ≠ 0 then none else some s.supply

/-- Takes one token in. -/
def take (s : Shape) : Token → Option Shape
  | .int _ | .float _ | .str _ | .symbol _ => some s.supply
  | .keyword text auto =>
    if auto && (Symbol.parse text).isQualified then none else some s.supply
  | .quote => some (.quote :: s)
  | .opening b => some (.group b 0 :: s)
  | .closing b =>
    match s with
    | .group b' items :: outer => if b = b' then close b items outer else none
    | _ => none

/-- Takes the next lexeme in, and refuses every fault but an open string. Nothing comes after that. -/
def step : Shape → Except LexFault Token → Option Shape
  | .string :: _, _ => none
  | s, .ok t => s.take t
  | s, .error .unterminatedString => some (.string :: s)
  | _, .error _ => none

/-- What is open after some lexemes, if all of them can be taken in. -/
def after (s : Shape) (ks : List (Except LexFault Token)) : Option Shape := ks.foldlM step s

theorem after_append (s : Shape) (ks ls : List (Except LexFault Token)) :
    s.after (ks ++ ls) = (s.after ks).bind (·.after ls) := List.foldlM_append

theorem after_cons (s : Shape) (k : Except LexFault Token) (ks : List (Except LexFault Token)) :
    s.after (k :: ks) = (s.step k).bind (·.after ks) := List.foldlM_cons

/-- Only a token completes what is open. -/
theorem ok_of_step_nil {s : Shape} {k : Except LexFault Token} (h : s.step k = some []) :
    ∃ t, k = .ok t ∧ s.take t = some [] := by
  unfold step at h
  split at h
  · cases h
  · exact ⟨_, rfl, h⟩
  · cases h
  · cases h

/-- The one fault that is taken in leaves a string open. -/
theorem of_step_error {s s' : Shape} {fault : LexFault} (h : s.step (.error fault) = some s') :
    fault = .unterminatedString ∧ s' = .string :: s := by
  unfold step at h
  split at h
  · cases h
  · rename_i heq
    cases heq
  · rename_i heq
    cases heq
    cases h
    exact ⟨rfl, rfl⟩
  · cases h

end Shape

/-- The shape of an open frame. -/
def Frame.slot : Frame → Slot
  | .quote => .quote
  | .group b items => .group b items.length

/-- The shape of open frames. -/
def Frame.shape (frames : List Frame) : Shape := frames.map Frame.slot

/-- What is open after a token, if it is not refused. -/
def ReadStep.shape : ReadStep → Option Shape
  | .form _ => some []
  | .pending frames => some (Frame.shape frames)
  | .refused _ _ => none

/-- A var that is bound can be bound to something else. -/
theorem World.root_setRoot {w : World} {v : Var} {x : Value} (h : w.root v = some x) (y : Value) :
    (w.setRoot v y).root v = some y := by
  unfold World.root World.cell at h ⊢
  unfold World.setRoot
  dsimp only
  rw [Array.getElem?_modify, if_pos rfl]
  cases hv : w.cells[v.id]? with
  | none =>
    rw [hv] at h
    cases h
  | some c => rfl

/-- The current namespace of the running thread, if the thread has used the registry and it is one. -/
def World.currentNamespace? (w : World) (here : Site) : Option Namespace :=
  match (w.threadState? here).bind fun state => w.root state.current with
  | some (.ns n) => some n
  | _ => none

/-- The running thread has used the registry. -/
def HasState (here : Site) (w : World) : Prop := (w.threadState? here).isSome = true

namespace HasState

variable {here : Site} {w u : World}

/-- Looking for the current namespace changes nothing. -/
theorem currentNamespace (h : HasState here w) : ∃ r, w.currentNamespace here = (r, w) := by
  obtain ⟨state, hstate⟩ := Option.isSome_iff_exists.mp h
  refine ⟨state.currentIn w, ?_⟩
  unfold World.currentNamespace World.threadState
  rw [hstate]

theorem informed (h : HasState here w) (hu : w.Informed u) : HasState here u := by
  unfold HasState at h ⊢
  rwa [hu.threadState?]

theorem glanced (h : HasState here w) (hu : w.Glanced u) : HasState here u :=
  informed (u := { u with objects := w.objects }) h hu

end HasState

/-- The running thread has a current namespace. -/
def HasCurrent (here : Site) (w : World) : Prop := (w.currentNamespace? here).isSome = true

namespace HasCurrent

variable {here : Site} {w u : World}

theorem iff_root : HasCurrent here w ↔
    ∃ state n, w.threadState? here = some state ∧ w.root state.current = some (.ns n) := by
  unfold HasCurrent World.currentNamespace?
  cases w.threadState? here with
  | none => simp
  | some state =>
    cases hroot : w.root state.current with
    | none => simp [hroot]
    | some x => cases x <;> simp [hroot]

theorem hasState (h : HasCurrent here w) : HasState here w := by
  obtain ⟨state, -, hstate, -⟩ := iff_root.mp h
  exact Option.isSome_iff_exists.mpr ⟨state, hstate⟩

/-- Looking for the current namespace finds one and changes nothing. -/
theorem currentNamespace (h : HasCurrent here w) : ∃ n, w.currentNamespace here = (.ok n, w) := by
  obtain ⟨state, n, hstate, hroot⟩ := iff_root.mp h
  have hcurrent : state.currentIn w = .ok n := by
    unfold ThreadState.currentIn
    rw [hroot]
  refine ⟨n, ?_⟩
  unfold World.currentNamespace World.threadState
  rw [hstate]
  exact congrArg (·, w) hcurrent

theorem informed (h : HasCurrent here w) (hu : w.Informed u) : HasCurrent here u := by
  have hroot : u.root = w.root := funext hu.root
  unfold HasCurrent World.currentNamespace? at h ⊢
  rwa [hu.threadState?, hroot]

theorem glanced (h : HasCurrent here w) (hu : w.Glanced u) : HasCurrent here u :=
  informed (u := { u with objects := w.objects }) h hu

/-- Switching the namespace of the running thread leaves a current one. -/
theorem switchNamespace (h : HasCurrent here w) (name : String) :
    HasCurrent here (w.switchNamespace here name).2 := by
  obtain ⟨state, n, hstate, hroot⟩ := iff_root.mp h
  have hstate' : (w.internNamespace here.registry name).2.threadState? here = some state := by
    unfold World.threadState? at hstate ⊢
    rwa [World.threads_internNamespace]
  have hroot' : (w.internNamespace here.registry name).2.root state.current = some (.ns n) := by
    unfold World.internNamespace
    split <;> exact hroot
  unfold World.switchNamespace World.threadState
  generalize w.internNamespace here.registry name = entered at hstate' hroot' ⊢
  obtain ⟨m, u⟩ := entered
  dsimp only at hstate' hroot' ⊢
  rw [hstate']
  exact iff_root.mpr ⟨state, m, hstate', World.root_setRoot hroot' _⟩

end HasCurrent

namespace Reader

variable {w : World} {here : Site} {frames : List Frame}

/-! ## Tokens -/

/-- A keyword with two colons may have no namespace part. -/
theorem readKeyword_aliased {s : Symbol} {auto : Bool} (h : (auto && s.isQualified) = true) :
    w.readKeyword here s auto = (.error .aliasedKeyword, w) := by
  obtain ⟨rfl, hs⟩ := Bool.and_eq_true_iff.mp h
  unfold World.readKeyword
  rw [hs]
  rfl

/-- Where there is a current namespace, every other keyword is interned, under some name. -/
theorem readKeyword_of_current (hw : HasCurrent here w) {s : Symbol} {auto : Bool}
    (h : (auto && s.isQualified) = false) :
    ∃ s', w.readKeyword here s auto =
      (.ok (w.internKeyword here.registry s').1, (w.internKeyword here.registry s').2) := by
  unfold World.readKeyword
  cases auto with
  | false => exact ⟨s, rfl⟩
  | true =>
    obtain ⟨n, hn⟩ := hw.currentNamespace
    refine ⟨s.inNamespace n.name, ?_⟩
    rw [show s.isQualified = false from h, hn]
    rfl

/-- Where the thread has used the registry, a keyword is interned under some name, or it is refused and nothing
has changed. -/
theorem readKeyword_of_state (hw : HasState here w) (s : Symbol) (auto : Bool) :
    (∃ s', w.readKeyword here s auto =
      (.ok (w.internKeyword here.registry s').1, (w.internKeyword here.registry s').2)) ∨
      ∃ e, w.readKeyword here s auto = (.error e, w) := by
  unfold World.readKeyword
  cases auto with
  | false => exact .inl ⟨s, rfl⟩
  | true =>
    cases hs : s.isQualified with
    | true => exact .inr ⟨_, rfl⟩
    | false =>
      obtain ⟨r, hr⟩ := hw.currentNamespace
      rw [hr]
      cases r with
      | ok n => exact .inl ⟨s.inNamespace n.name, rfl⟩
      | error fault => exact .inr ⟨_, rfl⟩

theorem shape_supply (v : Value) (frames : List Frame) :
    (supply w v frames).1.shape = some (Frame.shape frames).supply := by
  induction frames generalizing w v with
  | nil => rfl
  | cons frame frames ih =>
    cases frame with
    | quote => exact ih _
    | group b items => rfl

theorem shape_close (b : Bracket) (items : List Value) (frames : List Frame) :
    (close w b items frames).1.shape = Shape.close b items.length (Frame.shape frames) := by
  unfold close Shape.close
  cases b with
  | round => exact shape_supply _ _
  | square => exact shape_supply _ _
  | curly =>
    by_cases heven : items.length % 2 = 0
    · simp [heven, shape_supply]
    · simp [heven, ReadStep.shape]

/-- A token leads where the shape says, unless it is refused for want of a current namespace. -/
theorem shape_step_or (w : World) (here : Site) (frames : List Frame) (t : Token) :
    (step w here frames t).1.shape = (Frame.shape frames).take t ∨
      (step w here frames t).1.shape = none ∧ ¬ HasCurrent here w := by
  cases t with
  | int n => exact .inl (shape_supply _ _)
  | float x => exact .inl (shape_supply _ _)
  | str text => exact .inl (shape_supply _ _)
  | symbol text => exact .inl (shape_supply _ _)
  | keyword text auto =>
    unfold step Shape.take
    dsimp only
    cases halias : auto && (Symbol.parse text).isQualified with
    | true =>
      rw [readKeyword_aliased halias]
      exact .inl rfl
    | false =>
      by_cases hcurrent : HasCurrent here w
      · obtain ⟨s', hs'⟩ := readKeyword_of_current hcurrent halias
        rw [hs']
        exact .inl (shape_supply _ _)
      · obtain ⟨k | e, w'⟩ := w.readKeyword here (Symbol.parse text) auto
        · exact .inr ⟨rfl, hcurrent⟩
        · exact .inl (shape_supply _ _)
  | quote => exact .inl rfl
  | opening b => exact .inl rfl
  | closing b =>
    left
    match frames with
    | [] => rfl
    | .quote :: _ => rfl
    | .group b' items :: outer =>
      unfold step Shape.take
      by_cases hb : b = b'
      · simp [hb, Frame.shape, Frame.slot, shape_close]
      · simp [hb, Frame.shape, Frame.slot, ReadStep.shape]

/-- Where there is a current namespace, a token leads where the shape says. -/
theorem shape_step (hw : HasCurrent here w) (frames : List Frame) (t : Token) :
    (step w here frames t).1.shape = (Frame.shape frames).take t :=
  (shape_step_or w here frames t).resolve_right fun h => h.2 hw

/-- What a token has led to anywhere is what the shape says. -/
theorem take_of_shape_step {t : Token} {s : Shape} (h : (step w here frames t).1.shape = some s) :
    (Frame.shape frames).take t = some s := by
  obtain hs | ⟨hs, -⟩ := shape_step_or w here frames t
  · exact hs.symm.trans h
  · rw [hs] at h
    cases h

/-- Open frames have no open string. -/
theorem shape_step_ok (frames : List Frame) (t : Token) :
    (Frame.shape frames).step (.ok t) = (Frame.shape frames).take t := by
  match frames with
  | [] => rfl
  | .quote :: _ => rfl
  | .group _ _ :: _ => rfl

theorem frames_shape_eq_nil {frames : List Frame} : Frame.shape frames = [] ↔ frames = [] :=
  List.map_eq_nil_iff

end Reader

end SmallLisp
