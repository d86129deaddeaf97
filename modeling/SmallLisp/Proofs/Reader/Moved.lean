import SmallLisp.Proofs.Reader.Results

/-!
# Reading further on in a text

Where lexemes stand is of no account to the reader, but for the position that a fault of lexing reports
(`Reader.readFrom_moved`). So it is for an action that is done with each form (`Reader.foldUpTo_moved`),
unless the action itself fails with such a fault.
-/

namespace SmallLisp

/-- The same error so many characters further on: only a fault of lexing has a position. -/
def Error.moved (n : Nat) : Error → Error
  | .lex e => .lex (e.moved n)
  | e => e

/-- The same reason to stop so many characters further on. -/
def Halt.moved (n : Nat) : Halt → Halt
  | .error e => .error (e.moved n)
  | .outOfDepth => .outOfDepth

/-- The same end of a computation so many characters further on. -/
def movedEnd {σ α : Type} (n : Nat) : EStateM.Result Halt σ α → EStateM.Result Halt σ α
  | .ok x s => .ok x s
  | .error h s => .error (h.moved n) s

/-- The same reading so many characters further on. -/
def Reading.moved (n : Nat) (r : Reading) : Reading :=
  ⟨r.result.map (·.mapError (·.moved n)), r.rest.map (·.moved n), r.world⟩

/-- A computation does not end with a fault of lexing. -/
def NeverLexical {σ α : Type} (r : EStateM.Result Halt σ α) : Prop :=
  ∀ fault s, r ≠ .error (.error (.lex fault)) s

theorem Halt.moved_of_ne (n : Nat) {h : Halt} (hlex : ∀ fault, h ≠ .error (.lex fault)) : h.moved n = h := by
  match h with
  | .outOfDepth => rfl
  | .error (.lex fault) => exact absurd rfl (hlex fault)
  | .error (.intern _) | .error .aliasedKeyword | .error .assertionFailed | .error (.unreadableFile _ _)
  | .error (.noSequence _) | .error (.parse _) | .error (.analysis _) | .error (.eval _)
  | .error (.expansionLimit _ _) => rfl

theorem NeverLexical.movedEnd {σ α : Type} {r : EStateM.Result Halt σ α} (h : NeverLexical r) (n : Nat) :
    movedEnd n r = r := by
  cases r with
  | ok x s => rfl
  | error halt s =>
    exact congrArg (EStateM.Result.error · s) (halt.moved_of_ne n fun fault heq => h fault s (by rw [heq]))

namespace Reader

variable {here : Site} {w w' : World} {ls : List Lexeme}

theorem recover_moved (n depth : Nat) (ls : List Lexeme) :
    recover depth (ls.map (·.moved n)) = (recover depth ls).map (·.moved n) := by
  induction ls generalizing depth with
  | nil => cases depth <;> rfl
  | cons l ls ih =>
    cases depth with
    | zero => rfl
    | succ depth =>
      obtain ⟨r, stop⟩ := l
      match r with
      | .error e => exact ih _
      | .ok (.opening b) => exact ih _
      | .ok (.closing b) => exact ih _
      | .ok (.int _) | .ok (.float _) | .ok (.str _) | .ok (.symbol _) | .ok (.keyword _ _) | .ok .quote =>
        exact ih _

/-- A token is not refused for a fault of lexing. -/
theorem moved_of_refused {frames : List Frame} {t : Token} {e : Error} {d : Nat} (n : Nat)
    (h : step w here frames t = (.refused e d, w')) : e.moved n = e := by
  obtain ⟨_, rfl⟩ | rfl | rfl | ⟨_, rfl⟩ := refused_cases h <;> rfl

/-- Lexemes further on in a text are read in the same way. -/
theorem readFrom_moved (n : Nat) (w : World) (here : Site) (frames : List Frame) (ls : List Lexeme) :
    readFrom w here frames (ls.map (·.moved n)) = (readFrom w here frames ls).moved n := by
  induction ls generalizing w frames with
  | nil => cases frames <;> rfl
  | cons l ls ih =>
    rw [List.map_cons]
    simp only [readFrom]
    obtain ⟨r, stop⟩ := l
    cases r with
    | error e =>
      show (⟨some (.error (.lex (e.moved n))), recover (depth frames) (ls.map (·.moved n)), w⟩ : Reading) = _
      rw [recover_moved]
      rfl
    | ok t =>
      have hrefused : ∀ {e d w'}, step w here frames t = (.refused e d, w') → e.moved n = e :=
        moved_of_refused n
      have hresult : (Lexeme.moved n ⟨.ok t, stop⟩).result = .ok t := rfl
      rw [hresult]
      dsimp only
      generalize step w here frames t = a at hrefused ⊢
      obtain ⟨v | frames' | ⟨e, d⟩, w₁⟩ := a
      · rfl
      · exact ih w₁ frames'
      · dsimp only
        rw [recover_moved]
        show _ = (⟨some (.error (e.moved n)), _, w₁⟩ : Reading)
        rw [hrefused rfl]

variable {β : Type} {f : β → Value → Action β} {P : β → Prop}

/-- Folding over lexemes further on in a text ends in the same way. -/
theorem foldUpTo_moved (hf : ∀ b v w, P b → NeverLexical (f b v w))
    (hp : ∀ b v w b' w', P b → f b v w = .ok b' w' → P b') (n count : Nat) (ls : List Lexeme) {b : β}
    (hb : P b) (w : World) :
    foldUpTo here f count (ls.map (·.moved n)) b w = movedEnd n (foldUpTo here f count ls b w) := by
  induction count generalizing ls b w with
  | zero => rfl
  | succ count ih =>
    have hread : readFrom w here [] ls = ⟨_, _, _⟩ := rfl
    have hmoved := readFrom_moved n w here [] ls
    cases hresult : (readFrom w here [] ls).result with
    | none =>
      rw [hresult] at hread
      rw [hread] at hmoved
      rw [foldUpTo_of_none hmoved, foldUpTo_of_none hread]
      rfl
    | some r =>
      rw [hresult] at hread
      rw [hread] at hmoved
      cases r with
      | error e =>
        rw [foldUpTo_of_error hmoved, foldUpTo_of_error hread]
        rfl
      | ok v =>
        rw [foldUpTo_of_value hmoved, foldUpTo_of_value hread]
        have hquiet := hf b v (readFrom w here [] ls).world hb
        cases hend : f b v (readFrom w here [] ls).world with
        | ok b' u =>
          rw [run_bind_of_ok hend, run_bind_of_ok hend]
          exact ih _ (hp _ _ _ _ _ hb hend) u
        | error halt u =>
          rw [hend] at hquiet
          rw [run_bind_of_error hend, run_bind_of_error hend]
          exact (hquiet.movedEnd n).symm

/-- There are no more forms than lexemes, so that it makes no difference how many more are asked for. -/
theorem foldUpTo_of_length_le {n m : Nat} (hn : ls.length ≤ n) (hm : ls.length ≤ m) :
    foldUpTo here f n ls = foldUpTo here f m ls := by
  induction n generalizing m ls with
  | zero =>
    obtain rfl := List.length_eq_zero_iff.mp (Nat.le_zero.mp hn)
    funext b w
    rw [foldUpTo_nil, foldUpTo_nil]
  | succ n ih =>
    funext b w
    cases ls with
    | nil => rw [foldUpTo_nil, foldUpTo_nil]
    | cons l ls =>
      obtain ⟨m, rfl⟩ := Nat.exists_eq_add_of_le' (Nat.le_trans (Nat.succ_pos ls.length) hm)
      have hlt := length_rest_readFrom w here [] l ls
      obtain ⟨r, hread⟩ : ∃ r, readFrom w here [] (l :: ls) = r := ⟨_, rfl⟩
      rw [hread] at hlt
      obtain ⟨_ | e | v, rest, w'⟩ := r
      · rw [foldUpTo_of_none hread, foldUpTo_of_none hread]
      · rw [foldUpTo_of_error hread, foldUpTo_of_error hread]
      · have hrest : foldUpTo here f n rest = foldUpTo here f m rest :=
          ih (Nat.le_of_lt_succ (Nat.lt_of_lt_of_le hlt hn)) (Nat.le_of_lt_succ (Nat.lt_of_lt_of_le hlt hm))
        rw [foldUpTo_of_value hread, foldUpTo_of_value hread, hrest]

end Reader

end SmallLisp
