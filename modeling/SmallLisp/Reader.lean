import SmallLisp.Action
import SmallLisp.Token.Lexer
import SmallLisp.World.Thread

/-!
# Reading

Reading makes values of tokens, one top-level form at a time. The reader keeps what is open around
the next token, the innermost first: brackets with the items read inside them, and quote marks that
wait for a form. A form that is complete goes to what is innermost.

A fault gives up the top-level form: the reader passes over tokens until every bracket that is open
at the fault has been closed, where any closing bracket closes any opening one, and the next form
begins there. Keywords are interned as they are read, so two colons mean the namespace that is
current at that moment.
-/

namespace SmallLisp

/-- Something open that waits for forms. -/
inductive Frame where
  /-- A quote mark. -/
  | quote
  /-- A bracket and the items inside it so far, the last one first. -/
  | group (b : Bracket) (items : List Value)

/-- What a token leads to. -/
inductive ReadStep where
  /-- A top-level form is complete. -/
  | form (v : Value)
  /-- More tokens are needed. -/
  | pending (frames : List Frame)
  /-- The form is refused, with this many brackets open. -/
  | refused (e : Error) (depth : Nat)

/-- The outcome of reading one form: a value, an error, or nothing when no token is left; and the
lexemes and the world afterwards. -/
structure Reading where
  /-- The form, if any token was left. -/
  result : Option (Except Error Value)
  /-- The lexemes after it. -/
  rest : List Lexeme
  /-- The world after it. -/
  world : World

/-- The form that a quote mark makes of another. -/
def quoteSymbol : Symbol := Symbol.bare "quote"

/-- The value of a symbol token: three names are literals. -/
def Value.ofSymbolText (text : String) : Value :=
  if text = "nil" then .nil
  else if text = "true" then .bool true
  else if text = "false" then .bool false
  else .symbol (Symbol.parse text)

namespace Reader

/-- How many brackets are open. -/
def depth : List Frame → Nat
  | [] => 0
  | .quote :: frames => depth frames
  | .group _ _ :: frames => depth frames + 1

/-- The fault of a text that ends while something is open. -/
def endFault : Frame → ParseFault
  | .quote => .endOfInput none
  | .group b _ => .endOfInput (some b)

/-- Hands a complete form to what is open around it. -/
def supply (w : World) (v : Value) : List Frame → ReadStep × World
  | [] => (.form v, w)
  | .quote :: frames =>
    let (id, w) := w.newObject
    supply w (.list id [.symbol quoteSymbol, v]) frames
  | .group b items :: frames => (.pending (.group b (v :: items) :: frames), w)

/-- Makes a collection of the items between two brackets. -/
def close (w : World) (b : Bracket) (items : List Value) (frames : List Frame) :
    ReadStep × World :=
  match b with
  | .round => let (id, w) := w.newObject; supply w (.list id items) frames
  | .square => let (id, w) := w.newObject; supply w (.vector id items) frames
  | .curly =>
    if items.length % 2 = 0 then
      let (id, w) := w.newObject
      supply w (.map id (Value.entriesOf (Value.pairUp items))) frames
    else (.refused (.parse .oddMap) (depth frames), w)

/-- Takes one token in. -/
def step (w : World) (here : Site) (frames : List Frame) : Token → ReadStep × World
  | .int n => supply w (.int n) frames
  | .float x => supply w (.float x) frames
  | .str text => let (id, w) := w.newObject; supply w (.str id text) frames
  | .symbol text => supply w (Value.ofSymbolText text) frames
  | .keyword text auto =>
    match w.readKeyword here (Symbol.parse text) auto with
    | (.ok k, w) => supply w (.keyword k) frames
    | (.error e, w) => (.refused e (depth frames), w)
  | .quote => (.pending (.quote :: frames), w)
  | .opening b => (.pending (.group b [] :: frames), w)
  | .closing b =>
    match frames with
    | .group b' items :: outer =>
      if b = b' then close w b items.reverse outer
      else (.refused (.parse (.unexpectedClosing b)) (depth frames), w)
    | _ => (.refused (.parse (.unexpectedClosing b)) (depth frames), w)

/-- Passes over lexemes until this many brackets are closed, counting those opened on the way. -/
def recover : (depth : Nat) → List Lexeme → List Lexeme
  | 0, lexemes => lexemes
  | _ + 1, [] => []
  | depth + 1, l :: lexemes =>
    match l.result with
    | .ok (.opening _) => recover (depth + 2) lexemes
    | .ok (.closing _) => recover depth lexemes
    | _ => recover (depth + 1) lexemes

/-- Reads on with the given frames open. -/
def readFrom (w : World) (here : Site) : List Frame → List Lexeme → Reading
  | [], [] => ⟨none, [], w⟩
  | frame :: _, [] => ⟨some (.error (.parse (endFault frame))), [], w⟩
  | frames, l :: lexemes =>
    match l.result with
    | .error e => ⟨some (.error (.lex e)), recover (depth frames) lexemes, w⟩
    | .ok token =>
      match step w here frames token with
      | (.form v, w) => ⟨some (.ok v), lexemes, w⟩
      | (.pending frames, w) => readFrom w here frames lexemes
      | (.refused e depth, w) => ⟨some (.error e), recover depth lexemes, w⟩

/-- Reads the next top-level form. -/
def next (w : World) (here : Site) (lexemes : List Lexeme) : Reading :=
  readFrom w here [] lexemes

/-- Reads at most `count` forms, going on after errors. -/
def resultsUpTo (here : Site) : (count : Nat) → World → List Lexeme →
    List (Except Error Value) × World
  | 0, w, _ => ([], w)
  | count + 1, w, lexemes =>
    match next w here lexemes with
    | ⟨none, _, w⟩ => ([], w)
    | ⟨some result, rest, w⟩ =>
      let (results, w) := resultsUpTo here count w rest
      (result :: results, w)

/-- Reads all forms of a text, going on after errors. No form has fewer than one lexeme. -/
def results (w : World) (here : Site) (text : String) : List (Except Error Value) × World :=
  let lexemes := lex text
  resultsUpTo here lexemes.length w lexemes

/-- Takes the next top-level form off the front of the lexemes. -/
def take (w : World) (here : Site) (lexemes : List Lexeme) :
    (Option (Except Error Value) × List Lexeme) × World :=
  let reading := next w here lexemes
  ((reading.result, reading.rest), reading.world)

/-- Reads at most `count` forms and gives each to an action as soon as it is read; the first error
ends it all. -/
def foldUpTo {β : Type} (here : Site) (f : β → Value → Action β) :
    (count : Nat) → List Lexeme → β → Action β
  | 0, _, b => pure b
  | count + 1, lexemes, b => do
    match ← Action.update (take · here lexemes) with
    | (none, _) => pure b
    | (some (.error e), _) => Action.fail e
    | (some (.ok v), rest) => foldUpTo here f count rest (← f b v)

/-- Gives each form of a text to an action as soon as it is read; the first error ends it all. -/
def fold {β : Type} (here : Site) (f : β → Value → Action β) (text : String) (b : β) : Action β :=
  let lexemes := lex text
  foldUpTo here f lexemes.length lexemes b

end Reader

end SmallLisp
