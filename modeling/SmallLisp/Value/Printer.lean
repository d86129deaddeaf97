import SmallLisp.Decimal.Shortest
import SmallLisp.Text.Quoted
import SmallLisp.Value

/-!
# The text of values

`Value.text` is the written form of a value, in which strings are quoted; `Value.display` is what
the printing functions write, in which a string stands bare.
-/

namespace SmallLisp

/-- The written form of a keyword. -/
def Keyword.text (k : Keyword) : String := ":" ++ k.sym.text

/-- The written form of a var. -/
def Var.text (v : Var) : String := "#'" ++ v.name.text

/-- Words with a space between each two. -/
def spaced (words : List String) : String := String.intercalate " " words

namespace Value

mutual

/-- The written form of a value. -/
def text : Value → String
  | nil => "nil"
  | bool b => if b then "true" else "false"
  | int n => toString n.toInt
  | float x => Decimal.floatText x
  | str _ s => Text.quote s
  | symbol s => s.text
  | keyword k => k.text
  | list _ items => "(" ++ spaced (texts items) ++ ")"
  | vector _ items => "[" ++ spaced (texts items) ++ "]"
  | map _ entries => "\x7b" ++ String.intercalate ", " (entryTexts entries) ++ "\x7d"
  | native f => "#<native-fn " ++ f.name ++ ">"
  | function f =>
    match f.signature.name with
    | some name => "#<fn " ++ name.text ++ ">"
    | none => "#<fn>"
  | ns n => "#<namespace " ++ n.name ++ ">"
  | var v => v.text

/-- The written forms of values. -/
def texts : List Value → List String
  | [] => []
  | v :: vs => v.text :: texts vs

/-- The written forms of the entries of a map. -/
def entryTexts : List (Value × Value) → List String
  | [] => []
  | (k, v) :: es => (k.text ++ " " ++ v.text) :: entryTexts es

end

/-- The text that the printing functions write for a value. -/
def display : Value → String
  | str _ s => s
  | v => v.text

end Value

end SmallLisp
