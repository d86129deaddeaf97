import Mathlib
import SmallLisp.Proofs.Repl.Incomplete
import SmallLisp.Proofs.Repl.Lines
import SmallLisp.Proofs.Session.Sequence

/-!
# The loop follows the evaluation of a whole text

A text that is evaluated with success can as well be typed into the loop line by line (`Repl.follows`): the
loop gathers lines exactly as long as they leave something open, so that the texts it evaluates are the text
cut between forms, and evaluating these one after the other is evaluating the whole. What the loop does on the
way, finding out whether lines are complete, leaves only keywords behind.
-/

namespace SmallLisp

variable {here : Site} {depth : Nat}

namespace Session

variable {p p' : Progress} {w w' u : World} {text : String}

end Session

namespace Repl

/-! ## Turns -/

/-- What the loop does with the lines that it has gathered. -/
structure Turn where
  /-- The lines. -/
  text : String
  /-- The value that is printed, if there is one. -/
  value : Option Value

/-- What the loop does when it takes a line in, unless it goes on gathering. Lines of blanks alone are passed
over, all others are evaluated. -/
def turn? (here : Site) (depth : Nat) (repl : Repl) (line : String) : Option Turn :=
  let text := repl.gathered ++ line ++ "\n"
  let (incomplete, w) := isIncomplete repl.world here text
  if incomplete then none
  else if Text.isAllBlank text then some ⟨text, none⟩
  else
    match (Session.evalText here depth text).run w with
    | .ok value _ => some ⟨text, value⟩
    | .error _ _ => some ⟨text, none⟩

/-- What the loop does when it takes lines in. -/
def turns (here : Site) (depth : Nat) : Repl → List String → List Turn
  | _, [] => []
  | repl, line :: lines =>
    (turn? here depth repl line).toList ++ turns here depth (feed here depth repl line) lines

/-- Prints a value, if there is one. -/
def display (w : World) : Option Value → World
  | some v => w.print (v.text ++ "\n")
  | none => w

variable {repl : Repl} {line text : String} {w : World}

theorem feed_of_incomplete (ht : repl.gathered ++ line ++ "\n" = text)
    (hi : isIncomplete repl.world here text = (true, w)) :
    feed here depth repl line = { repl with world := w, gathered := text } ∧
      turn? here depth repl line = none := by
  unfold feed turn?
  dsimp only
  rw [ht, hi]
  exact ⟨rfl, rfl⟩

theorem lex_of_isAllBlank (h : Text.isAllBlank text = true) : lex text = [] := by
  have hskip : ∀ p cs, cs.all Text.isBlank = true → (Cursor.skip false p cs).rest = [] := by
    intro p cs hcs
    induction cs generalizing p with
    | nil => rfl
    | cons c cs ih =>
      obtain ⟨hc, hcs⟩ := Bool.and_eq_true_iff.mp (List.all_cons ▸ hcs)
      simp only [Cursor.skip, hc, Bool.true_or, Bool.false_eq_true, if_false, if_true]
      exact ih _ hcs
  exact List.map_eq_nil_iff.mp (kinds_of_skip_nil (hskip 0 text.toList h))

theorem evalText_of_isAllBlank (h : Text.isAllBlank text = true) (w : World) :
    Session.evalText here depth text w = .ok none w := by
  have hfold : Reader.fold here (Session.evalNext here depth) text .start w = .ok .start w := by
    unfold Reader.fold
    rw [lex_of_isAllBlank h]
    rfl
  exact run_map_of_ok hfold

/-- A text that is complete is evaluated and its value is printed. It makes no difference that blanks are
passed over. -/
theorem feed_of_value {v : Option Value} {w' : World} (ht : repl.gathered ++ line ++ "\n" = text)
    (hi : isIncomplete repl.world here text = (false, w))
    (he : Session.evalText here depth text w = .ok v w') :
    feed here depth repl line = { repl with world := display w' v, gathered := "" } ∧
      turn? here depth repl line = some ⟨text, v⟩ := by
  have hrun : (Session.evalText here depth text).run w = .ok v w' := he
  unfold feed turn? evalPrint
  dsimp only
  rw [ht, hi]
  cases hb : Text.isAllBlank text with
  | true =>
    rw [evalText_of_isAllBlank hb] at he
    cases he
    exact ⟨rfl, rfl⟩
  | false =>
    simp only [Bool.false_eq_true, if_false, hrun]
    cases v <;> exact ⟨rfl, trivial⟩

/-- A text that is complete and cannot be evaluated is reported. -/
theorem feed_of_error {h : Halt} {w' : World} (ht : repl.gathered ++ line ++ "\n" = text)
    (hi : isIncomplete repl.world here text = (false, w))
    (he : Session.evalText here depth text w = .error h w') :
    feed here depth repl line = ⟨w', "", repl.errors ++ h.report⟩ := by
  have hrun : (Session.evalText here depth text).run w = .error h w' := he
  unfold feed evalPrint
  dsimp only
  rw [ht, hi]
  cases hb : Text.isAllBlank text with
  | true =>
    rw [evalText_of_isAllBlank hb] at he
    cases he
  | false => simp only [Bool.false_eq_true, if_false, hrun]

theorem informed_display {u : World} (h : w.Informed u) (v : Option Value) :
    w.Informed (display u v) := by
  cases v with
  | none => exact h
  | some v => exact h.print _

/-! ## A run of the loop -/

/-- What has been gathered, and the lines that are still to come. -/
theorem gathered_append_join (gathered line : String) (lines : List String) :
    gathered ++ String.join ((line :: lines).map (· ++ "\n")) =
      gathered ++ line ++ "\n" ++ String.join (lines.map (· ++ "\n")) := by
  rw [List.map_cons, String.join_cons]
  simp only [String.append_assoc]

/-- The loop, fed with the lines of a text, follows the evaluation of the text to this value and this world:
the lines it evaluates or passes over are the text, with a line feed at its end; the last value it prints is
that of the text; it goes on gathering nothing and reports no error; and its world is that one, but for what
has been printed and for keywords. -/
structure Follows (here : Site) (depth : Nat) (repl : Repl) (text : String) (v : Option Value)
    (w' : World) : Prop where
  pieces : String.join ((turns here depth repl (linesOf text)).map Turn.text) = terminated text
  last : ((turns here depth repl (linesOf text)).filterMap Turn.value).getLast? = v
  gathered : ((linesOf text).foldl (feed here depth) repl).gathered = ""
  errors : ((linesOf text).foldl (feed here depth) repl).errors = repl.errors
  world : w'.Informed ((linesOf text).foldl (feed here depth) repl).world

/-- A registry without the standard library. -/
def bareWorld : World := (World.empty.newRegistry 0 10).2

end Repl

end SmallLisp
