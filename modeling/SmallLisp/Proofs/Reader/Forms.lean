import SmallLisp.Proofs.Action.Run
import SmallLisp.Proofs.Reader.Shape

/-!
# The forms of a text

The shape of a text tells where its forms end, without a world (`IsForm`, `Forms`), and whether something is
left open behind the last one (`IsOpen`). The reader finds these forms in every world, or it fails; it can only
fail for want of a current namespace (`Reader.readFrom_form`). So folding over a text that begins with complete
forms is folding over these and then over the rest (`Reader.foldUpTo_append`).
-/

namespace SmallLisp

/-- The lexemes complete what is open, and no fewer of them do. -/
inductive IsForm : Shape → List Lexeme → Prop
  /-- The last lexeme. -/
  | last {s : Shape} {l : Lexeme} (h : s.step l.kind = some []) : IsForm s [l]
  /-- A lexeme after which something is open. -/
  | more {s s' : Shape} {l : Lexeme} {ls : List Lexeme} (h : s.step l.kind = some s') (hne : s' ≠ [])
    (hf : IsForm s' ls) : IsForm s (l :: ls)

/-- The lexemes are so many forms, one after the other. -/
inductive Forms : Nat → List Lexeme → Prop
  /-- No form. -/
  | nil : Forms 0 []
  /-- A form in front of others. -/
  | cons {n : Nat} {ls rest : List Lexeme} (h : IsForm [] ls) (hr : Forms n rest) :
    Forms (n + 1) (ls ++ rest)

/-- The lexemes end before what is open is complete. -/
inductive IsOpen : Shape → List Lexeme → Prop
  /-- No lexeme is left. -/
  | last {s : Shape} (h : s ≠ []) : IsOpen s []
  /-- A lexeme after which something is open. -/
  | more {s s' : Shape} {l : Lexeme} {ls : List Lexeme} (h : s.step l.kind = some s') (hne : s' ≠ [])
    (ho : IsOpen s' ls) : IsOpen s (l :: ls)

variable {s o : Shape} {l : Lexeme} {ls rest : List Lexeme} {n : Nat}

theorem Lexeme.result_of_kind {t : Token} (h : l.kind = .ok t) : l.result = .ok t := by
  unfold kind at h
  cases hr : l.result with
  | error e =>
    rw [hr] at h
    cases h
  | ok t' =>
    rw [hr] at h
    cases h
    rfl

theorem Lexeme.result_of_kind_error {fault : LexFault} (h : l.kind = .error fault) :
    ∃ position, l.result = .error ⟨position, fault⟩ := by
  unfold kind at h
  cases hr : l.result with
  | error e =>
    rw [hr] at h
    cases h
    exact ⟨e.position, rfl⟩
  | ok t =>
    rw [hr] at h
    cases h

theorem Lexeme.kind_of_result {t : Token} (h : l.result = .ok t) : l.kind = .ok t := by
  unfold kind
  rw [h]
  rfl

theorem IsForm.ne_nil (h : IsForm s ls) : ls ≠ [] := by
  cases h <;> exact List.cons_ne_nil _ _

/-- A form has a lexeme, so fewer lexemes are left behind it. -/
theorem IsForm.length_lt (h : IsForm s ls) (rest : List Lexeme) : rest.length < (ls ++ rest).length := by
  have hpos := List.length_pos_iff.mpr h.ne_nil
  rw [List.length_append]
  omega

theorem IsForm.after (h : IsForm s ls) : s.after (ls.map Lexeme.kind) = some [] := by
  induction h with
  | last h => simp [h, Shape.after]
  | more h _ _ ih => simp [Shape.after_cons, h, ih]

theorem Forms.after (h : Forms n ls) : Shape.after [] (ls.map Lexeme.kind) = some [] := by
  induction h with
  | nil => rfl
  | cons h _ ih => rw [List.map_append, Shape.after_append, h.after, Option.bind_some, ih]

/-- Behind a form, what is open is that of the rest. -/
theorem form_or_open (h : s.after (ls.map Lexeme.kind) = some o) (hne : s ≠ [] ∨ ls ≠ []) :
    (∃ form rest, ls = form ++ rest ∧ IsForm s form ∧
      Shape.after [] (rest.map Lexeme.kind) = some o) ∨ o ≠ [] ∧ IsOpen s ls := by
  induction ls generalizing s with
  | nil =>
    obtain hs | hnil := hne
    · obtain rfl : s = o := Option.some.inj h
      exact .inr ⟨hs, .last hs⟩
    · exact absurd rfl hnil
  | cons l ls ih =>
    rw [List.map_cons, Shape.after_cons] at h
    obtain ⟨s', hs', h⟩ := Option.bind_eq_some_iff.mp h
    by_cases hnil : s' = []
    · subst hnil
      exact .inl ⟨[l], ls, rfl, .last hs', h⟩
    · obtain ⟨form, rest, rfl, hf, hrest⟩ | ⟨ho, hopen⟩ := ih h (.inl hnil)
      · exact .inl ⟨l :: form, rest, rfl, .more hs' hnil hf, hrest⟩
      · exact .inr ⟨ho, .more hs' hnil hopen⟩

/-- The forms of a text, and what is left open behind them, if there is anything. -/
theorem forms_then_open (h : Shape.after [] (ls.map Lexeme.kind) = some o) :
    ∃ k forms tail, ls = forms ++ tail ∧ Forms k forms ∧
      (o = [] ∧ tail = [] ∨ o ≠ [] ∧ tail ≠ [] ∧ IsOpen [] tail) := by
  induction hn : ls.length using Nat.strongRecOn generalizing ls with
  | ind n ih =>
    by_cases hnil : ls = []
    · subst hnil
      exact ⟨0, [], [], rfl, .nil, .inl ⟨(Option.some.inj h).symm, rfl⟩⟩
    · obtain ⟨form, rest, rfl, hform, hrest⟩ | ⟨ho, hopen⟩ := form_or_open h (.inr hnil)
      · obtain ⟨k, forms, tail, rfl, hforms, htail⟩ := ih _ (hn ▸ hform.length_lt rest) hrest rfl
        exact ⟨k + 1, form ++ forms, tail, (List.append_assoc ..).symm, .cons hform hforms, htail⟩
      · exact ⟨0, [], ls, rfl, .nil, .inr ⟨ho, hnil, hopen⟩⟩

/-- A text that leaves nothing open consists of forms. -/
theorem forms_of_after (h : Shape.after [] (ls.map Lexeme.kind) = some []) : ∃ n, Forms n ls := by
  obtain ⟨k, forms, tail, rfl, hforms, ⟨-, rfl⟩ | ⟨ho, -⟩⟩ := forms_then_open h
  · exact ⟨k, (List.append_nil forms).symm ▸ hforms⟩
  · exact absurd rfl ho

theorem Forms.le_length (h : Forms n ls) : n ≤ ls.length := by
  induction h with
  | nil => exact Nat.le_refl 0
  | @cons n form rest hform _ ih => exact Nat.lt_of_le_of_lt ih (hform.length_lt rest)

namespace Reader

variable {w w' : World} {here : Site} {frames : List Frame}

/-! ## What reading leaves behind -/

theorem glanced_supply (w : World) (v : Value) (frames : List Frame) :
    w.Glanced (supply w v frames).2 := by
  induction frames generalizing w v with
  | nil => exact .refl w
  | cons frame frames ih =>
    cases frame with
    | quote => exact (World.Glanced.newObject w).trans (ih _ _)
    | group b items => exact .refl w

theorem glanced_close (w : World) (b : Bracket) (items : List Value) (frames : List Frame) :
    w.Glanced (close w b items frames).2 := by
  have made : ∀ v, w.Glanced (supply w.newObject.2 v frames).2 := fun v =>
    (World.Glanced.newObject w).trans (glanced_supply _ v frames)
  unfold close
  cases b with
  | round => exact made _
  | square => exact made _
  | curly =>
    dsimp only
    split
    · exact made _
    · exact .refl w

theorem glanced_step (hw : HasState here w) (frames : List Frame) (t : Token) :
    w.Glanced (step w here frames t).2 := by
  cases t with
  | int n => exact glanced_supply _ _ _
  | float x => exact glanced_supply _ _ _
  | str text => exact (World.Glanced.newObject w).trans (glanced_supply _ _ _)
  | symbol text => exact glanced_supply _ _ _
  | keyword text auto =>
    unfold step
    dsimp only
    obtain ⟨s', hs'⟩ | ⟨e, he⟩ := readKeyword_of_state hw (Symbol.parse text) auto
    · rw [hs']
      exact (World.Glanced.internKeyword w _ s').trans (glanced_supply _ _ _)
    · rw [he]
      exact .refl w
  | quote => exact .refl w
  | opening b => exact .refl w
  | closing b =>
    unfold step
    dsimp only
    split
    · split
      · exact glanced_close _ _ _ _
      · exact .refl w
    · exact .refl w

/-- Looking for a form makes objects and learns keywords, and no more. -/
theorem glanced_readFrom (hw : HasState here w) (frames : List Frame) (ls : List Lexeme) :
    w.Glanced (readFrom w here frames ls).world := by
  induction ls generalizing w frames with
  | nil =>
    cases frames <;> exact .refl w
  | cons l ls ih =>
    rw [readFrom]
    cases l.result with
    | error e => exact .refl w
    | ok t =>
      have hstep := glanced_step hw frames t
      dsimp only
      generalize step w here frames t = r at hstep ⊢
      obtain ⟨v | frames' | ⟨e, d⟩, w'⟩ := r
      · exact hstep
      · exact hstep.trans (ih (hw.glanced hstep) frames')
      · exact hstep

/-! ## Reading a form -/

/-- What a token can do that the shape takes in: complete a form, leave frames of that shape open, or be
refused for want of a current namespace. -/
theorem step_cases (w : World) (here : Site) {t : Token} (h : (Frame.shape frames).take t = some s) :
    (s = [] ∧ ∃ v w', step w here frames t = (.form v, w')) ∨
      (s ≠ [] ∧ ∃ frames' w', step w here frames t = (.pending frames', w') ∧
        Frame.shape frames' = s ∧ (HasCurrent here w → HasCurrent here w')) ∨
      ¬ HasCurrent here w ∧ ∃ e d w', step w here frames t = (.refused e d, w') := by
  have hshape := shape_step_or w here frames t
  have hpending : ∀ {frames' w'}, step w here frames t = (.pending frames', w') → frames' ≠ [] :=
    step_pending
  have hglanced : HasCurrent here w → HasCurrent here (step w here frames t).2 :=
    fun hw => hw.glanced (glanced_step hw.hasState frames t)
  rw [h] at hshape
  generalize step w here frames t = r at *
  obtain ⟨v | frames' | ⟨e, d⟩, w'⟩ := r
  · obtain hs | ⟨hs, -⟩ := hshape
    · exact .inl ⟨(Option.some.inj hs).symm, v, w', rfl⟩
    · cases hs
  · obtain hs | ⟨hs, -⟩ := hshape
    · obtain rfl := Option.some.inj hs
      exact .inr (.inl ⟨mt frames_shape_eq_nil.mp (hpending rfl), frames', w', rfl, rfl, hglanced⟩)
    · cases hs
  · obtain hs | ⟨-, hw⟩ := hshape
    · cases hs
    · exact .inr (.inr ⟨hw, e, d, w', rfl⟩)

theorem not_isForm_string : ¬ IsForm (.string :: s) ls := by
  rintro (⟨⟨⟩⟩ | ⟨⟨⟩, -, -⟩)

/-- A form is read whatever follows it, or it is refused for want of a current namespace. -/
theorem readFrom_form (w : World) (here : Site) (frames : List Frame)
    (hf : IsForm (Frame.shape frames) ls) :
    (∃ v w', ∀ rest, readFrom w here frames (ls ++ rest) = ⟨some (.ok v), rest, w'⟩) ∨
      ¬ HasCurrent here w ∧ ∃ e w', ∀ rest, ∃ rest',
        readFrom w here frames (ls ++ rest) = ⟨some (.error e), rest', w'⟩ := by
  generalize hs : Frame.shape frames = s at hf
  induction hf generalizing w frames with
  | @last s l h =>
    subst hs
    obtain ⟨t, ht, htake⟩ := Shape.ok_of_step_nil h
    simp only [List.cons_append, List.nil_append, readFrom, Lexeme.result_of_kind ht]
    obtain ⟨-, v, w', hv⟩ | ⟨hne, -⟩ | ⟨hw, e, d, w', he⟩ := step_cases w here htake
    · rw [hv]
      exact .inl ⟨v, w', fun _ => rfl⟩
    · exact absurd rfl hne
    · rw [he]
      exact .inr ⟨hw, e, w', fun _ => ⟨_, rfl⟩⟩
  | @more s s' l ls h hne hf ih =>
    subst hs
    cases hk : l.kind with
    | error e =>
      rw [hk] at h
      obtain ⟨-, rfl⟩ := Shape.of_step_error h
      exact absurd hf not_isForm_string
    | ok t =>
      rw [hk, shape_step_ok] at h
      simp only [List.cons_append, readFrom, Lexeme.result_of_kind hk]
      obtain ⟨hnil, -⟩ | ⟨-, frames', w', hp, hs', hkeep⟩ | ⟨hw, e, d, w', he⟩ :=
        step_cases w here h
      · exact absurd hnil hne
      · rw [hp]
        obtain hread | ⟨hw', hfail⟩ := ih w' frames' hs'
        · exact .inl hread
        · exact .inr ⟨mt hkeep hw', hfail⟩
      · rw [he]
        exact .inr ⟨hw, e, w', fun _ => ⟨_, rfl⟩⟩

theorem not_isOpen_string (h : IsOpen (.string :: s) ls) : ls = [] := by
  obtain _ | ⟨⟨⟩, -, -⟩ := h
  rfl

/-- What is left open is read to an error that more text could mend. -/
theorem readFrom_open (frames : List Frame) (hw : HasCurrent here w) (ho : IsOpen (Frame.shape frames) ls) :
    ∃ e, readFrom w here frames ls = ⟨some (.error e), [], (readFrom w here frames ls).world⟩ ∧
      e.isIncomplete = true := by
  generalize hs : Frame.shape frames = s at ho
  induction ho generalizing w frames with
  | @last s hne =>
    match frames with
    | [] => exact absurd hs.symm hne
    | frame :: frames => cases frame <;> exact ⟨_, rfl, rfl⟩
  | @more s s' l ls h hne ho ih =>
    subst hs
    cases hk : l.kind with
    | error fault =>
      rw [hk] at h
      obtain ⟨rfl, rfl⟩ := Shape.of_step_error h
      obtain rfl := not_isOpen_string ho
      obtain ⟨position, hl⟩ := Lexeme.result_of_kind_error hk
      have hrest : ∀ d, recover d [] = [] := fun d => by cases d <;> rfl
      simp only [readFrom, hl, hrest]
      exact ⟨_, rfl, rfl⟩
    | ok t =>
      rw [hk, shape_step_ok] at h
      simp only [readFrom, Lexeme.result_of_kind hk]
      obtain ⟨hnil, -⟩ | ⟨-, frames', w', hp, hs', hkeep⟩ | ⟨hcurrent, -⟩ :=
        step_cases w here h
      · exact absurd hnil hne
      · rw [hp]
        exact ih frames' (hkeep hw) hs'
      · exact absurd hw hcurrent

/-- The lexeme of a token leads where the token has led. -/
theorem step_of_shape_step {t : Token} (hl : l.result = .ok t)
    (h : (step w here frames t).1.shape = some s) : (Frame.shape frames).step l.kind = some s := by
  rw [Lexeme.kind_of_result hl, shape_step_ok]
  exact take_of_shape_step h

/-- What has been read is a form. -/
theorem form_of_readFrom {v : Value} (h : readFrom w here frames ls = ⟨some (.ok v), rest, w'⟩) :
    ∃ form, ls = form ++ rest ∧ IsForm (Frame.shape frames) form := by
  induction ls generalizing w frames with
  | nil => cases frames <;> cases h
  | cons l ls ih =>
    rw [readFrom] at h
    cases hl : l.result with
    | error e =>
      rw [hl] at h
      cases h
    | ok t =>
      have hstep : ∀ {s}, (step w here frames t).1.shape = some s →
          (Frame.shape frames).step l.kind = some s := step_of_shape_step hl
      have hpending : ∀ {frames' w'}, step w here frames t = (.pending frames', w') → frames' ≠ [] :=
        step_pending
      rw [hl] at h
      dsimp only at h
      generalize step w here frames t = r at *
      obtain ⟨v' | frames' | ⟨e, d⟩, w₁⟩ := r
      · cases h
        exact ⟨[l], rfl, .last (hstep rfl)⟩
      · obtain ⟨form, rfl, hform⟩ := ih h
        have hne : Frame.shape frames' ≠ [] := mt frames_shape_eq_nil.mp (hpending rfl)
        exact ⟨l :: form, rfl, .more (hstep rfl) hne hform⟩
      · cases h

/-- Behind a value fewer lexemes are left. -/
theorem length_rest_of_value {v : Value} (h : readFrom w here frames ls = ⟨some (.ok v), rest, w'⟩) :
    rest.length < ls.length := by
  obtain ⟨form, rfl, hform⟩ := form_of_readFrom h
  exact hform.length_lt rest

/-! ## Places do not matter -/

variable {ls' : List Lexeme}

theorem recover_congr (h : ls.map Lexeme.result = ls'.map Lexeme.result) (d : Nat) :
    (recover d ls).map Lexeme.result = (recover d ls').map Lexeme.result := by
  induction ls generalizing ls' d with
  | nil =>
    obtain rfl := List.map_eq_nil_iff.mp h.symm
    rfl
  | cons l ls ih =>
    cases ls' with
    | nil => cases h
    | cons l' ls' =>
      obtain ⟨hl, hls⟩ := List.cons.inj h
      cases d with
      | zero => exact h
      | succ d =>
        simp only [recover, hl]
        split <;> exact ih hls _

/-- The reader looks at the results of lexing alone, not at where the lexemes stand. -/
theorem readFrom_congr (h : ls.map Lexeme.result = ls'.map Lexeme.result) (w : World) (here : Site)
    (frames : List Frame) :
    (readFrom w here frames ls).result = (readFrom w here frames ls').result ∧
      (readFrom w here frames ls).rest.map Lexeme.result =
        (readFrom w here frames ls').rest.map Lexeme.result ∧
      (readFrom w here frames ls).world = (readFrom w here frames ls').world := by
  induction ls generalizing ls' w frames with
  | nil =>
    obtain rfl := List.map_eq_nil_iff.mp h.symm
    exact ⟨rfl, rfl, rfl⟩
  | cons l ls ih =>
    cases ls' with
    | nil => cases h
    | cons l' ls' =>
      obtain ⟨hl, hls⟩ := List.cons.inj h
      simp only [readFrom, hl]
      cases l'.result with
      | error e => exact ⟨rfl, recover_congr hls _, rfl⟩
      | ok t =>
        dsimp only
        obtain ⟨v | frames' | ⟨e, d⟩, w'⟩ := step w here frames t
        · exact ⟨rfl, hls, rfl⟩
        · exact ih hls w' frames'
        · exact ⟨rfl, recover_congr hls _, rfl⟩

/-! ## Folding over forms -/

variable {β : Type} {f : β → Value → Action β} {b : β}

theorem foldUpTo_zero : foldUpTo here f 0 ls b = pure b := rfl

theorem foldUpTo_nil (n : Nat) : foldUpTo here f n [] b w = .ok b w := by
  cases n <;> rfl

variable {v : Value}

theorem update_take {r : Option (Except Error Value)} (h : readFrom w here [] ls = ⟨r, rest, w'⟩) :
    Action.update (take · here ls) w = .ok (r, rest) w' := by
  show EStateM.Result.ok (take w here ls).1 (take w here ls).2 = _
  unfold take next
  rw [h]

theorem foldUpTo_of_value (h : readFrom w here [] ls = ⟨some (.ok v), rest, w'⟩) :
    foldUpTo here f (n + 1) ls b w = (f b v >>= foldUpTo here f n rest) w' :=
  run_bind_of_ok (update_take h)

theorem foldUpTo_of_none (h : readFrom w here [] ls = ⟨none, rest, w'⟩) :
    foldUpTo here f (n + 1) ls b w = .ok b w' :=
  run_bind_of_ok (update_take h)

theorem foldUpTo_of_error {e : Error} (h : readFrom w here [] ls = ⟨some (.error e), rest, w'⟩) :
    foldUpTo here f (n + 1) ls b w = .error (.error e) w' :=
  run_bind_of_ok (update_take h)

/-- Folding over a text that begins with so many forms is folding over these and then over the rest. -/
theorem foldUpTo_append {k : Nat} (h : Forms k ls) (m : Nat) (rest : List Lexeme) :
    foldUpTo here f (k + m) (ls ++ rest) b = foldUpTo here f k ls b >>= foldUpTo here f m rest := by
  induction h generalizing b with
  | nil => rw [Nat.zero_add, List.nil_append, foldUpTo_zero, pure_bind]
  | @cons k form forms hf _ ih =>
    funext w
    rw [Nat.add_right_comm, List.append_assoc]
    obtain ⟨v, w', hread⟩ | ⟨-, e, w', hread⟩ := readFrom_form w here [] hf
    · have hvalue : foldUpTo here f (k + 1) (form ++ forms) b w =
          (f b v >>= foldUpTo here f k forms) w' := foldUpTo_of_value (hread _)
      calc foldUpTo here f (k + m + 1) (form ++ (forms ++ rest)) b w
        _ = (f b v >>= foldUpTo here f (k + m) (forms ++ rest)) w' := foldUpTo_of_value (hread _)
        _ = (f b v >>= fun b => foldUpTo here f k forms b >>= foldUpTo here f m rest) w' := by
          simp only [← ih]
        _ = ((f b v >>= foldUpTo here f k forms) >>= foldUpTo here f m rest) w' := by
          rw [bind_assoc]
        _ = (foldUpTo here f (k + 1) (form ++ forms) b >>= foldUpTo here f m rest) w :=
          run_bind_congr hvalue.symm
    · obtain ⟨_, hwhole⟩ := hread (forms ++ rest)
      obtain ⟨_, hfirst⟩ := hread forms
      rw [foldUpTo_of_error hwhole, run_bind_of_error (foldUpTo_of_error hfirst)]

/-- Asking for more forms than there are changes nothing. -/
theorem foldUpTo_of_le {k : Nat} (h : Forms k ls) (hn : k ≤ n) :
    foldUpTo here f n ls b = foldUpTo here f k ls b := by
  obtain ⟨m, rfl⟩ := Nat.exists_eq_add_of_le hn
  have hnil : foldUpTo here f m [] = pure := funext fun _ => funext fun _ => foldUpTo_nil m
  calc foldUpTo here f (k + m) ls b
    _ = foldUpTo here f (k + m) (ls ++ []) b := by rw [List.append_nil]
    _ = foldUpTo here f k ls b >>= foldUpTo here f m [] := foldUpTo_append h m []
    _ = foldUpTo here f k ls b := by rw [hnil, bind_pure]

/-- A fold that succeeds has gone over forms, with nothing left open. -/
theorem forms_of_foldUpTo {b' : β} (h : foldUpTo here f n ls b w = .ok b' w')
    (hn : ls.length ≤ n) : ∃ k, Forms k ls := by
  induction n generalizing ls b w with
  | zero =>
    obtain rfl := List.length_eq_zero_iff.mp (Nat.le_zero.mp hn)
    exact ⟨0, .nil⟩
  | succ n ih =>
    have hread : readFrom w here [] ls = ⟨_, _, _⟩ := rfl
    cases hr : (readFrom w here [] ls).result with
    | none =>
      obtain rfl := (result_next_eq_none_iff w here ls).mp hr
      exact ⟨0, .nil⟩
    | some r =>
      rw [hr] at hread
      cases r with
      | error e =>
        rw [foldUpTo_of_error hread] at h
        cases h
      | ok v =>
        rw [foldUpTo_of_value hread] at h
        obtain ⟨b₁, w₁, -, hfold⟩ := of_run_bind_ok h
        obtain ⟨form, hls, hform⟩ := form_of_readFrom hread
        have hlt : (readFrom w here [] ls).rest.length < n + 1 := Nat.lt_of_lt_of_le (length_rest_of_value hread) hn
        obtain ⟨k, hk⟩ := ih hfold (Nat.le_of_lt_succ hlt)
        exact ⟨k + 1, hls ▸ .cons hform hk⟩

/-- Folding looks at the results of lexing alone. -/
theorem foldUpTo_congr (h : ls.map Lexeme.result = ls'.map Lexeme.result) :
    foldUpTo here f n ls b = foldUpTo here f n ls' b := by
  induction n generalizing ls ls' b with
  | zero => rfl
  | succ n ih =>
    funext w
    obtain ⟨hresult, hrest, hworld⟩ := readFrom_congr h w here []
    have hread : readFrom w here [] ls = ⟨_, _, _⟩ := rfl
    have hread' : readFrom w here [] ls' = ⟨_, _, _⟩ := rfl
    rw [← hresult, ← hworld] at hread'
    cases hr : (readFrom w here [] ls).result with
    | none =>
      rw [hr] at hread hread'
      rw [foldUpTo_of_none hread, foldUpTo_of_none hread']
    | some r =>
      rw [hr] at hread hread'
      cases r with
      | error e => rw [foldUpTo_of_error hread, foldUpTo_of_error hread']
      | ok v =>
        have hsame : foldUpTo here f n (readFrom w here [] ls).rest =
            foldUpTo here f n (readFrom w here [] ls').rest := funext fun _ => ih hrest
        rw [foldUpTo_of_value hread, foldUpTo_of_value hread', hsame]

end Reader

end SmallLisp
