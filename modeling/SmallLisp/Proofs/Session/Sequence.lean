import Mathlib
import SmallLisp.Proofs.Reader.Moved
import SmallLisp.Proofs.Session.Depth
import SmallLisp.Proofs.Token.Joint

/-!
# Texts one after the other

A text that is evaluated with success, a line feed and another text are evaluated together as the one is
and then the other, from the state that the first one has left (`Session.evaluates_newline`). The second
text is read only when the first one has been evaluated, so that its names are those of the namespace that
is current by then. What tells the two ways apart is only where the second text stands: a fault of lexing
in it has a position further on.

The first text leaves no string open, for it is all forms, so that its lexemes do not change if more text
comes behind the end of a line; and whatever one of its forms is evaluated to, the next form is read and
evaluated alike, since no scope is open between two forms.
-/

namespace SmallLisp

variable {here : Site} {depth : Nat} {w u : World}

/-- Every world beside itself, where no text is read. -/
abbrev quiet (here : Site) : Lockstep here := { alone here with reads := False }

/-- What is done without reading a text does not end with a fault of lexing. -/
theorem Lockstep.Steps.neverLexical {α : Type} {P : α → Prop} {a b : Action α}
    (h : (quiet here).Steps P a b) (w : World) : NeverLexical (a w) := by
  intro fault s ha
  have hend := h w w ⟨rfl, trivial⟩
  rw [ha] at hend
  generalize b w = r at hend
  cases hend with
  | error h => exact h.1.lexical fault rfl

theorem Lockstep.Steps.of_ok {α : Type} {P : α → Prop} {a b : Action α} (h : (quiet here).Steps P a b)
    {x : α} (ha : a w = .ok x u) : P x := by
  have hend := h w w ⟨rfl, trivial⟩
  rw [ha] at hend
  generalize b w = r at hend
  cases hend with
  | ok h => exact h.1

namespace Session

/-! ## Going on -/

/-- Where a text stands that comes after another one, of which this is the last value. -/
def Progress.behind (last : Option Value) (p : Progress) : Progress := ⟨p.scopes, p.last.or last⟩

/-- Where no scope is open, what has been done before is the last value, and no more. -/
theorem Progress.eq_behind {p : Progress} (hp : p.scopes = []) : p = Progress.behind p.last .start := by
  cases p
  exact congrArg (Progress.mk · _) hp

theorem evalNext_behind (last : Option Value) (p : Progress) (v : Value) :
    evalNext here depth (p.behind last) v = Progress.behind last <$> evalNext here depth p v := by
  unfold evalNext
  simp only [map_bind, map_pure]
  rfl

/-- The values of the forms before do not matter to those that follow. -/
theorem foldUpTo_behind (last : Option Value) (n : Nat) (ls : List Lexeme) (p : Progress) :
    Reader.foldUpTo here (evalNext here depth) n ls (p.behind last) =
      Progress.behind last <$> Reader.foldUpTo here (evalNext here depth) n ls p := by
  induction n generalizing ls p with
  | zero => rw [Reader.foldUpTo_zero, Reader.foldUpTo_zero, map_pure]
  | succ n ih =>
    unfold Reader.foldUpTo
    rw [map_bind]
    congr 1
    funext r
    obtain ⟨_ | e | v, rest⟩ := r
    · rw [map_pure]
    · rfl
    · dsimp only
      rw [evalNext_behind, map_bind, bind_map_left]
      simp only [ih]

theorem fold_behind (last : Option Value) (text : String) (p : Progress) :
    Reader.fold here (evalNext here depth) text (p.behind last) =
      Progress.behind last <$> Reader.fold here (evalNext here depth) text p :=
  foldUpTo_behind last _ _ p

theorem steps_evalNext {p : Progress} (hp : p.scopes = []) (v : Value) :
    (quiet here).Steps (fun p => p.scopes = []) (evalNext here depth p v) (evalNext here depth p v) :=
  (Lockstep.evalNext (Nat.le_refl depth) p v ⟨hp, fun _ _ _ _ => trivial⟩ fun _ _ => trivial).mono
    fun _ h => h.scopes

/-- The forms of a text are evaluated alike where the text stands further on. -/
theorem foldUpTo_evalNext_moved (n count : Nat) (ls : List Lexeme) {p : Progress} (hp : p.scopes = [])
    (w : World) :
    Reader.foldUpTo here (evalNext here depth) count (ls.map (·.moved n)) p w =
      movedEnd n (Reader.foldUpTo here (evalNext here depth) count ls p w) :=
  Reader.foldUpTo_moved (P := fun p => p.scopes = []) (fun _ v w hp => (steps_evalNext hp v).neverLexical w)
    (fun _ v _ _ _ hp h => (steps_evalNext hp v).of_ok h) n count ls hp w

variable {p p₁ : Progress} {a b text : String} {va : Option Value}

theorem scopes_of_fold (hp : p.scopes = []) (h : Reader.fold here (evalNext here depth) a p w = .ok p₁ u) :
    p₁.scopes = [] := by
  have hsettled : (alone here).Settled p := ⟨hp, fun _ _ _ _ => trivial⟩
  exact (Invariant.of_ok (Lockstep.evalLexemes trivial (Nat.le_refl depth) _ _ hsettled) trivial h).1.scopes

/-- The forms of a text, a line feed and another text are those of the first text and then those of the second
one, further on. -/
theorem fold_newline (hp : p.scopes = []) (ha : Reader.fold here (evalNext here depth) a p w = .ok p₁ u) :
    Reader.fold here (evalNext here depth) (a ++ "\n" ++ b) p w =
      movedEnd (a.length + 1) (Reader.fold here (evalNext here depth) b p₁ u) := by
  have hopened := Reader.opened_of_fold ha
  have hscopes := scopes_of_fold hp ha
  have hclosed : ∀ l ∈ lex a, l.kind ≠ .error .unterminatedString := by
    intro l hl herror
    obtain ⟨t, ht⟩ := Shape.ok_of_after hopened (List.mem_map_of_mem hl)
    rw [herror] at ht
    cases ht
  obtain ⟨k, hk⟩ := forms_of_after hopened
  have hle := hk.le_length
  simp only [Reader.fold] at ha ⊢
  rw [lex_newline hclosed, List.length_append, List.length_map]
  obtain ⟨m, hm⟩ := Nat.exists_eq_add_of_le (Nat.le_trans hle (Nat.le_add_right _ (lex b).length))
  rw [Reader.foldUpTo_of_le hk hle] at ha
  calc Reader.foldUpTo here (evalNext here depth) ((lex a).length + (lex b).length)
        (lex a ++ (lex b).map (·.moved (a.length + 1))) p w
    _ = (Reader.foldUpTo here (evalNext here depth) k (lex a) p >>=
          Reader.foldUpTo here (evalNext here depth) m ((lex b).map (·.moved (a.length + 1)))) w := by
      rw [hm, Reader.foldUpTo_append hk]
    _ = Reader.foldUpTo here (evalNext here depth) m ((lex b).map (·.moved (a.length + 1))) p₁ u :=
      run_bind_of_ok ha
    _ = movedEnd (a.length + 1) (Reader.foldUpTo here (evalNext here depth) m (lex b) p₁ u) :=
      foldUpTo_evalNext_moved _ _ _ hscopes u
    _ = movedEnd (a.length + 1)
          (Reader.foldUpTo here (evalNext here depth) (lex b).length (lex b) p₁ u) := by
      rw [Reader.foldUpTo_of_length_le (n := m) (by omega) (Nat.le_refl _)]

/-- The end of a text that comes so many characters behind another one, of which this is the value: the last
value is that one if the text has none of its own, and a fault of lexing lies further on. -/
def endBehind (last : Option Value) (n : Nat) :
    EStateM.Result Halt World (Option Value) → EStateM.Result Halt World (Option Value)
  | .ok v w => .ok (v.or last) w
  | .error h w => .error (h.moved n) w

/-- With one and the same depth, two texts that a line feed joins are evaluated one after the other. -/
theorem evalText_newline (ha : evalText here depth a w = .ok va u) :
    evalText here depth (a ++ "\n" ++ b) w = endBehind va (a.length + 1) (evalText here depth b u) := by
  obtain ⟨p₁, hfold, rfl⟩ := of_run_map_ok ha
  have hwhole := fold_newline (b := b) rfl hfold
  rw [Progress.eq_behind (scopes_of_fold rfl hfold), fold_behind] at hwhole
  cases hb : Reader.fold here (evalNext here depth) b .start u with
  | ok q u' =>
    rw [run_map_of_ok hb] at hwhole
    have hlast : evalText here depth b u = .ok q.last u' := run_map_of_ok hb
    rw [hlast]
    exact run_map_of_ok hwhole
  | error e u' =>
    rw [run_map_of_error hb] at hwhole
    have hfails : evalText here depth b u = .error e u' := run_map_of_error hb
    rw [hfails]
    exact run_map_of_error hwhole

/-- With enough depth the text is evaluated to this result. -/
def Evaluates (here : Site) (text : String) (w : World)
    (r : EStateM.Result Halt World (Option Value)) : Prop :=
  Finished r ∧ ∃ depth, evalText here depth text w = r

variable {r r' : EStateM.Result Halt World (Option Value)}

/-- More than one depth may be taken for the one that is enough. -/
theorem Evaluates.at_least (h : Evaluates here text w r) (least : Nat) :
    ∃ depth, least ≤ depth ∧ evalText here depth text w = r := by
  obtain ⟨hr, depth, rfl⟩ := h
  exact ⟨max depth least, Nat.le_max_right _ _, evalText_deeper (Nat.le_max_left _ _) hr⟩

/-- With enough depth there is only one result. -/
theorem Evaluates.unique (h : Evaluates here text w r) (h' : Evaluates here text w r') : r = r' := by
  obtain ⟨hr', depth, rfl⟩ := h'
  obtain ⟨more, hmore, rfl⟩ := h.at_least depth
  exact evalText_deeper hmore hr'

theorem finished_endBehind (n : Nat) (h : Finished r) : Finished (endBehind va n r) := by
  match r with
  | .ok _ _ => trivial
  | .error (.error _) _ => trivial
  | .error .outOfDepth _ => exact h

/-! ## Texts of one name -/

theorem evalText_of_token {t : Token} {v : Value} (hb : (lex b).map Lexeme.result = [.ok t])
    (hv : Reader.step w here [] t = (.form v, u)) :
    evalText here depth b w = (Progress.last <$> evalNext here depth .start v) u := by
  obtain ⟨l, hl, hresult⟩ := List.map_eq_singleton_iff.mp hb
  have hread : Reader.readFrom w here [] (lex b) = ⟨some (.ok v), [], u⟩ := by
    rw [hl, Reader.readFrom, hresult]
    dsimp only
    rw [hv]
  have hfold : Reader.fold here (evalNext here depth) b .start w = evalNext here depth .start v u := by
    have hlength : (lex b).length = 0 + 1 := congrArg List.length hl
    simp only [Reader.fold]
    rw [hlength, Reader.foldUpTo_of_value hread]
    exact congrFun (bind_pure _) u
  unfold evalText
  show EStateM.map _ _ _ = EStateM.map _ _ _
  unfold EStateM.map
  rw [hfold]

/-- A keyword with two colons is that of the current namespace. -/
theorem evalText_autoKeyword {k : String} {n : Namespace}
    (hb : (lex b).map Lexeme.result = [.ok (.keyword k true)])
    (hk : (Symbol.parse k).isQualified = false) (hn : w.currentNamespace here = (.ok n, u)) :
    evalText here (depth + 1) b w =
      .ok (some (.keyword (u.internKeyword here.registry ((Symbol.parse k).inNamespace n.name)).1))
        (u.internKeyword here.registry ((Symbol.parse k).inNamespace n.name)).2 := by
  have hstep : Reader.step w here [] (.keyword k true) =
      (.form (.keyword (u.internKeyword here.registry ((Symbol.parse k).inNamespace n.name)).1),
        (u.internKeyword here.registry ((Symbol.parse k).inNamespace n.name)).2) := by
    simp only [Reader.step, World.readKeyword, hk, hn]
    rfl
  rw [evalText_of_token hb hstep]
  rfl

/-- A symbol that the current namespace has a var for stands for the root of the var. -/
theorem evalText_symbol {x : String} {n : Namespace} {v : Var} {y : Value}
    (hb : (lex b).map Lexeme.result = [.ok (.symbol x)])
    (hx : Value.ofSymbolText x = .symbol (Symbol.parse x)) (hq : (Symbol.parse x).isQualified = false)
    (hn : w.currentNamespace here = (.ok n, u))
    (hv : u.findVarIn? n ((Symbol.parse x).inNamespace n.name) = some v) (hy : u.root v = some y) :
    evalText here (depth + 1) b w = .ok (some y) u := by
  have hstep : Reader.step w here [] (.symbol x) = (.form (.symbol (Symbol.parse x)), w) := by
    rw [← hx]
    rfl
  have hfind : w.findVar here (Symbol.parse x) = (.ok (some v), u) := by
    unfold World.findVar
    simp [hq, hn, Except.map, hv]
  have hlocal : Analysis.isLocal (Symbol.parse x) ⟨w, []⟩ = .ok false ⟨w, []⟩ := by simp [Analysis.isLocal]
  have hmeaning := Analysis.inScopes_of_ok (meaning_of_findVar hlocal hfind depth)
  have hform : evalForm here (depth + 1) [] (.symbol (Symbol.parse x)) w = .ok (y, []) u :=
    (run_bind_of_ok hmeaning).trans (run_bind_of_ok (evaluate_of_root hy depth []))
  have hnext : evalNext here (depth + 1) .start (.symbol (Symbol.parse x)) w = .ok ⟨[], some y⟩ u :=
    run_bind_of_ok hform
  rw [evalText_of_token hb hstep]
  exact run_map_of_ok hnext

/-! ## Sequential composition -/

/-- The state that `a` leaves behind is the one that `b` is evaluated in behind it: the two texts with a line
feed between them end as `b` ends from there. So a keyword with two colons in `b` is one of the namespace that
`a` has left current, and a symbol stands for the root of the var that this namespace has for it. -/
theorem evaluates_newline (ha : Evaluates here a w (.ok va u)) :
    (∀ b r, Evaluates here b u r →
      Evaluates here (a ++ "\n" ++ b) w (endBehind va (a.length + 1) r)) ∧
    (∀ b k n u', (lex b).map Lexeme.result = [.ok (.keyword k true)] →
      (Symbol.parse k).isQualified = false → u.currentNamespace here = (.ok n, u') →
      let interned := u'.internKeyword here.registry ((Symbol.parse k).inNamespace n.name)
      Evaluates here (a ++ "\n" ++ b) w (.ok (some (.keyword interned.1)) interned.2)) ∧
    ∀ b x n u' v y, (lex b).map Lexeme.result = [.ok (.symbol x)] →
      Value.ofSymbolText x = .symbol (Symbol.parse x) → (Symbol.parse x).isQualified = false →
      u.currentNamespace here = (.ok n, u') →
      u'.findVarIn? n ((Symbol.parse x).inNamespace n.name) = some v → u'.root v = some y →
      Evaluates here (a ++ "\n" ++ b) w (.ok (some y) u') := by
  have joined : ∀ b r, Evaluates here b u r →
      Evaluates here (a ++ "\n" ++ b) w (endBehind va (a.length + 1) r) := by
    intro b r hb
    obtain ⟨hr, enough, rfl⟩ := hb
    obtain ⟨depth, hle, hfirst⟩ := ha.at_least enough
    refine ⟨finished_endBehind _ hr, depth, ?_⟩
    rw [evalText_newline hfirst, evalText_deeper hle hr]
  refine ⟨joined, fun b k n u' hb hk hn => ?_, fun b x n u' v y hb hx hq hn hv hy => ?_⟩
  · exact joined b (.ok _ _) ⟨trivial, 1, evalText_autoKeyword hb hk hn⟩
  · exact joined b (.ok _ _) ⟨trivial, 1, evalText_symbol hb hx hq hn hv hy⟩

/-- A registry with the core namespace. -/
def coreWorld : World := (World.empty.newRegistry 0 10).2

/-- The same in the namespace `user`. -/
def userWorld : World := (evalText ⟨0, 0⟩ 30 "(in-ns 'user)").after coreWorld

/-- Behind a text that goes to the namespace `user`, a keyword with two colons is one of `user`, and a
word that begins like a number and is none lies behind the thirteen characters of that text and the line
feed. -/
theorem evaluates_newline_user :
    Evaluates ⟨0, 0⟩ "(in-ns 'user)" coreWorld (.ok (some .nil) userWorld) ∧
      (∃ u, Evaluates ⟨0, 0⟩ ("(in-ns 'user)" ++ "\n" ++ "::k") coreWorld
        (.ok (some (.keyword ⟨0, ⟨"user", "k"⟩, true⟩)) u)) ∧
      Evaluates ⟨0, 0⟩ ("(in-ns 'user)" ++ "\n" ++ "1x") coreWorld
        (.error (.error (.lex ⟨14, .invalidNumber "1x"⟩)) userWorld) := by
  have ha : Evaluates ⟨0, 0⟩ "(in-ns 'user)" coreWorld (.ok (some .nil) userWorld) :=
    ⟨trivial, 30, by cbv⟩
  obtain ⟨u, hk⟩ : ∃ u, Evaluates ⟨0, 0⟩ "::k" userWorld (.ok (some (.keyword ⟨0, ⟨"user", "k"⟩, true⟩)) u) :=
    ⟨(evalText ⟨0, 0⟩ 30 "::k").after userWorld, trivial, 30, by cbv⟩
  have hx : Evaluates ⟨0, 0⟩ "1x" userWorld (.error (.error (.lex ⟨0, .invalidNumber "1x"⟩)) userWorld) :=
    ⟨trivial, 30, by cbv⟩
  obtain ⟨joined, -, -⟩ := evaluates_newline ha
  exact ⟨ha, ⟨u, joined _ _ hk⟩, joined _ _ hx⟩

end Session

end SmallLisp
