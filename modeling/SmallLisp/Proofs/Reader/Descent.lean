import SmallLisp.Proofs.Reader.Recovery
import SmallLisp.Proofs.Token.Advance

/-!
# Reading by recursive descent

A reader that calls itself for the forms inside a form keeps no frames. It has a lexer and counts the brackets that
are open (`Descent`), so that it knows how many to close when it gives a form up. Its rules are those of `Reads`. It
always comes to an end (`Descent.exists_reads`), with as many brackets open as before if it has read a form, and no
fewer if it has not; and it reads what the reader with frames does (`Reads.agrees`).
-/

namespace SmallLisp

/-- A reader that counts its open brackets. The count is an integer, so nothing keeps it from falling below zero. -/
structure Descent where
  /-- The world. -/
  world : World
  /-- Where the lexer stands. -/
  cursor : Cursor
  /-- The brackets that have been opened and not yet closed. -/
  depth : Int

/-- What there is to be read. -/
inductive Task where
  /-- The form that begins with this token, which has just been taken. -/
  | form (t : Token)
  /-- A collection, from behind these items on, the last one first. -/
  | inside (b : Bracket) (items : List Value)

namespace Descent

/-- Takes the next token, which must be there: inside a bracket, or behind a quote mark. -/
def expect (p : Descent) (inside : Option Bracket) : Except Error Token × Descent :=
  match p.cursor.advance with
  | (none, c) => (.error (.parse (.endOfInput inside)), { p with cursor := c })
  | (some (.error e), c) => (.error (.lex e), { p with cursor := c })
  | (some (.ok t), c) => (.ok t, { p with cursor := c })

/-- The value of a token that is a form by itself. -/
def atom? (w : World) (here : Site) : Token → Option (Except Error Value × World)
  | .int n => some (.ok (.int n), w)
  | .float x => some (.ok (.float x), w)
  | .str text => some (.ok (.str w.newObject.1 text), w.newObject.2)
  | .symbol text => some (.ok (Value.ofSymbolText text), w)
  | .keyword text auto =>
    let read := w.readKeyword here (Symbol.parse text) auto
    some (read.1.map .keyword, read.2)
  | .quote | .opening _ | .closing _ => none

/-- The collection of the items between two brackets. -/
def collection (w : World) (b : Bracket) (items : List Value) : Except Error Value × World :=
  match b with
  | .round => (.ok (.list w.newObject.1 items), w.newObject.2)
  | .square => (.ok (.vector w.newObject.1 items), w.newObject.2)
  | .curly =>
    if items.length % 2 = 0 then
      (.ok (.map w.newObject.1 (Value.entriesOf (Value.pairUp items))), w.newObject.2)
    else (.error (.parse .oddMap), w)

end Descent

open Descent in
/-- What reading comes to, by recursive descent. -/
inductive Reads (here : Site) : Descent → Task → Except Error Value → Descent → Prop
  | atom {p t r w} (h : atom? p.world here t = some (r, w)) : Reads here p (.form t) r { p with world := w }
  /-- Nothing to be quoted follows. -/
  | quoteEnds {p q e} (h : p.expect none = (.error e, q)) : Reads here p (.form .quote) (.error e) q
  | quote {p q s t v} (h : p.expect none = (.ok t, q)) (form : Reads here q (.form t) (.ok v) s) :
    Reads here p (.form .quote) (.ok (.list s.world.newObject.1 [.symbol quoteSymbol, v]))
      { s with world := s.world.newObject.2 }
  | quoteFails {p q s t e} (h : p.expect none = (.ok t, q)) (form : Reads here q (.form t) (.error e) s) :
    Reads here p (.form .quote) (.error e) s
  | opening {p q b r} (h : Reads here { p with depth := p.depth + 1 } (.inside b []) r q) :
    Reads here p (.form (.opening b)) r q
  | closing {p b} : Reads here p (.form (.closing b)) (.error (.parse (.unexpectedClosing b))) p
  /-- The text ends inside the brackets, or has a fault there. -/
  | ends {p q b items e} (h : p.expect (some b) = (.error e, q)) : Reads here p (.inside b items) (.error e) q
  | closes {p q b items r w} (h : p.expect (some b) = (.ok (.closing b), q))
    (made : collection q.world b items.reverse = (r, w)) :
    Reads here p (.inside b items) r ⟨w, q.cursor, q.depth - 1⟩
  | item {p q s u b items t v r} (h : p.expect (some b) = (.ok t, q)) (hne : t ≠ .closing b)
    (form : Reads here q (.form t) (.ok v) s) (behind : Reads here s (.inside b (v :: items)) r u) :
    Reads here p (.inside b items) r u
  | itemFails {p q s b items t e} (h : p.expect (some b) = (.ok t, q)) (hne : t ≠ .closing b)
    (form : Reads here q (.form t) (.error e) s) : Reads here p (.inside b items) (.error e) s

namespace Descent

variable {here : Site} {p q : Descent} {t : Token} {b : Bracket} {inside : Option Bracket}

/-! ## Taking tokens -/

@[simp] theorem depth_expect (p : Descent) (inside : Option Bracket) : (p.expect inside).2.depth = p.depth := by
  unfold expect
  split <;> rfl

theorem depth_of_expect {x : Except Error Token} (h : p.expect inside = (x, q)) : q.depth = p.depth := by
  rw [← depth_expect p inside, h]

theorem length_rest_expect_le (p : Descent) (inside : Option Bracket) :
    (p.expect inside).2.cursor.rest.length ≤ p.cursor.rest.length := by
  have hadvance := p.cursor.length_rest_advance_le
  unfold expect
  generalize p.cursor.advance = a at hadvance ⊢
  obtain ⟨_ | _ | _, c⟩ := a <;> exact hadvance

theorem length_rest_expect (h : p.expect inside = (.ok t, q)) : q.cursor.rest.length < p.cursor.rest.length := by
  have hadvance := p.cursor.length_rest_advance
  unfold expect at h
  generalize p.cursor.advance = a at hadvance h
  obtain ⟨_ | _ | t', c⟩ := a
  · cases h
  · cases h
  · cases h
    exact hadvance rfl

/-- Reading comes to an end, and the lexer does not go back. -/
theorem exists_reads (here : Site) (p : Descent) (task : Task) :
    ∃ r q, Reads here p task r q ∧ q.cursor.rest.length ≤ p.cursor.rest.length := by
  induction hn : p.cursor.rest.length using Nat.strongRecOn generalizing p task with
  | ind n ih =>
    -- What stands inside a bracket begins behind a token, as what is quoted does.
    have hinside : ∀ (p : Descent) b items, p.cursor.rest.length = n →
        ∃ r q, Reads here p (.inside b items) r q ∧ q.cursor.rest.length ≤ n := by
      rintro p b items rfl
      rcases hx : p.expect (some b) with ⟨x, q⟩
      have hle := p.length_rest_expect_le (some b)
      rw [hx] at hle
      cases x with
      | error e => exact ⟨_, q, .ends hx, hle⟩
      | ok t =>
        have hlt := length_rest_expect hx
        by_cases hclosing : t = .closing b
        · subst hclosing
          exact ⟨_, _, .closes hx rfl, hle⟩
        · obtain ⟨r, s, hform, hs⟩ := ih _ hlt q (.form t) rfl
          cases r with
          | error e => exact ⟨_, s, .itemFails hx hclosing hform, hs.trans hle⟩
          | ok v =>
            obtain ⟨r, u, hbehind, hu⟩ := ih _ (hs.trans_lt hlt) s (.inside b (v :: items)) rfl
            exact ⟨r, u, .item hx hclosing hform hbehind, (hu.trans hs).trans hle⟩
    cases task with
    | inside b items => exact hinside p b items hn
    | form t =>
      cases t with
      | int _ | float _ | str _ | symbol _ | keyword _ _ => exact ⟨_, _, .atom rfl, hn.le⟩
      | opening b =>
        obtain ⟨r, q, hq, hle⟩ := hinside { p with depth := p.depth + 1 } b [] hn
        exact ⟨r, q, .opening hq, hle⟩
      | closing b => exact ⟨_, p, .closing, hn.le⟩
      | quote =>
        rcases hx : p.expect none with ⟨x, q⟩
        have hle := p.length_rest_expect_le none
        rw [hx, hn] at hle
        cases x with
        | error e => exact ⟨_, q, .quoteEnds hx, hle⟩
        | ok t =>
          have hlt := length_rest_expect hx
          obtain ⟨r, s, hform, hs⟩ := ih _ (hn ▸ hlt) q (.form t) rfl
          cases r with
          | error e => exact ⟨_, s, .quoteFails hx hform, hs.trans hle⟩
          | ok v => exact ⟨_, _, .quote hx hform, hs.trans hle⟩

/-! ## The reader with frames -/

theorem lexemes_advance (c : Cursor) : c.lexemes =
    match c.advance with
    | (none, _) => []
    | (some r, c') => ⟨r, c'.position⟩ :: c'.lexemes := by
  rw [c.lexemes_eq, c.next?_eq]
  generalize c.advance = a
  obtain ⟨_ | r, c'⟩ := a <;> rfl

end Descent

/-- The bracket inside which a frame waits for forms; a quote mark is none. -/
def Frame.bracket? : Frame → Option Bracket
  | .quote => none
  | .group b _ => some b

namespace Reader

open Descent (atom? collection)

variable {here : Site} {w : World} {p q : Descent} {t : Token} {frames : List Frame} {task : Task}

/-- Hands on what has been read, or gives the form up. -/
def handOn (frames : List Frame) : Except Error Value × World → ReadStep × World
  | (.ok v, w) => supply w v frames
  | (.error e, w) => (.refused e (depth frames), w)

theorem step_eq_handOn {x : Except Error Value × World} (h : atom? w here t = some x) :
    step w here frames t = handOn frames x := by
  cases t with
  | int _ | float _ | str _ | symbol _ =>
    cases h
    rfl
  | keyword text auto =>
    rw [← Option.some.inj h]
    simp only [step]
    generalize w.readKeyword here (Symbol.parse text) auto = r
    obtain ⟨_ | _, u⟩ := r <;> rfl
  | quote | opening b | closing b => cases h

theorem close_eq_handOn (b : Bracket) (items : List Value) :
    close w b items frames = handOn frames (collection w b items) := by
  cases b with
  | round | square => rfl
  | curly =>
    unfold close collection
    dsimp only
    split <;> rfl

theorem readFrom_ok (w : World) (here : Site) (frames : List Frame) (t : Token) (stop : Nat) (ls : List Lexeme) :
    readFrom w here frames (⟨.ok t, stop⟩ :: ls) = resume here ls (step w here frames t) := by
  rw [readFrom]
  dsimp only
  generalize step w here frames t = r
  obtain ⟨v | frames' | ⟨e, d⟩, u⟩ := r <;> rfl

theorem recover_zero (ls : List Lexeme) : recover 0 ls = ls := by
  cases ls <;> rfl

theorem recover_nil (d : Nat) : recover d [] = [] := by
  cases d <;> rfl

section

variable (here : Site) (frame : Frame) (frames : List Frame)

/-- With something open, reading goes on with the next token. -/
theorem readFrom_of_expect (h : p.expect frame.bracket? = (.ok t, q)) :
    readFrom p.world here (frame :: frames) p.cursor.lexemes =
      resume here q.cursor.lexemes (step q.world here (frame :: frames) t) := by
  rw [Descent.lexemes_advance]
  unfold Descent.expect at h
  generalize p.cursor.advance = a at h ⊢
  obtain ⟨_ | e | t', c⟩ := a
  · cases h
  · cases h
  · cases h
    exact readFrom_ok _ _ _ _ _ _

/-- With something open, reading ends where no token follows. -/
theorem readFrom_of_expect_error {e : Error} (h : p.expect frame.bracket? = (.error e, q)) :
    readFrom p.world here (frame :: frames) p.cursor.lexemes =
      ⟨some (.error e), recover (depth (frame :: frames)) q.cursor.lexemes, q.world⟩ := by
  have hagain := p.cursor.advance_of_none
  rw [Descent.lexemes_advance]
  unfold Descent.expect at h
  generalize p.cursor.advance = a at h hagain ⊢
  obtain ⟨_ | e | t', c⟩ := a
  · have hnone : c.lexemes = [] := by rw [Descent.lexemes_advance, hagain rfl]
    cases h
    dsimp only
    rw [hnone, recover_nil]
    cases frame <;> rfl
  · cases h
    rfl
  · cases h

end

/-- The same task with frames. -/
def readTask (here : Site) (p : Descent) (frames : List Frame) : Task → Reading
  | .form t => resume here p.cursor.lexemes (step p.world here frames t)
  | .inside b items => readFrom p.world here (.group b items :: frames) p.cursor.lexemes

/-- A form does not begin with what closes the innermost bracket. -/
def Fits (frames : List Frame) : Task → Prop
  | .form t => ∀ b items outer, frames = .group b items :: outer → t ≠ .closing b
  | .inside _ _ => True

/-- How many brackets are open around what is to be read. -/
def around (p : Descent) : Task → Int
  | .form _ => p.depth
  | .inside _ _ => p.depth - 1

/-- Reading ends with as many brackets open as are around if it gives a value, and no fewer if it gives none; and the
reader with frames has the same result, and gives up as many brackets. -/
def Agrees (here : Site) (frames : List Frame) (around : Int) (reading : Reading) (r : Except Error Value)
    (q : Descent) : Prop :=
  match r with
  | .ok v => q.depth = around ∧ reading = resume here q.cursor.lexemes (supply q.world v frames)
  | .error e => ∃ d : Nat, q.depth = around + d ∧
      reading = ⟨some (.error e), recover (depth frames + d) q.cursor.lexemes, q.world⟩

theorem reads_agrees {r : Except Error Value} (h : Reads here p task r q) (frames : List Frame)
    (hfits : Fits frames task) : Agrees here frames (around p task) (readTask here p frames task) r q := by
  induction h generalizing frames with
  | @atom p t r w h =>
    unfold readTask
    dsimp only
    rw [step_eq_handOn h]
    cases r with
    | ok v => exact ⟨rfl, rfl⟩
    | error e => exact ⟨0, (Int.add_zero _).symm, rfl⟩
  | quoteEnds h =>
    have hread := readFrom_of_expect_error here .quote frames h
    exact ⟨0, by rw [Descent.depth_of_expect h]; exact (Int.add_zero _).symm, hread⟩
  | quote h _ ih =>
    have hread := readFrom_of_expect here .quote frames h
    obtain ⟨hdepth, hform⟩ := ih (.quote :: frames) nofun
    exact ⟨hdepth.trans (Descent.depth_of_expect h), hread.trans hform⟩
  | quoteFails h _ ih =>
    have hread := readFrom_of_expect here .quote frames h
    obtain ⟨d, hdepth, hform⟩ := ih (.quote :: frames) nofun
    exact ⟨d, hdepth.trans (congrArg (· + _) (Descent.depth_of_expect h)), hread.trans hform⟩
  | opening _ ih =>
    have hread := ih frames trivial
    rwa [around, Int.add_sub_cancel] at hread
  | @closing p b =>
    have hstep : step p.world here frames (.closing b) =
        (.refused (.parse (.unexpectedClosing b)) (depth frames), p.world) := by
      simp only [step]
      split
      · rename_i b' items outer
        exact if_neg fun heq => hfits b' items outer rfl (by rw [heq])
      · rfl
    exact ⟨0, (Int.add_zero _).symm, congrArg (resume here p.cursor.lexemes) hstep⟩
  | @ends p q b items e h =>
    have hread := readFrom_of_expect_error here (.group b items) frames h
    exact ⟨1, by rw [Descent.depth_of_expect h]; exact (Int.sub_add_cancel _ _).symm, hread⟩
  | @closes p q b items r w h made =>
    have hread := readFrom_of_expect here (.group b items) frames h
    have hstep : step q.world here (.group b items :: frames) (.closing b) = handOn frames (r, w) := by
      rw [← made, ← close_eq_handOn]
      exact if_pos rfl
    have hdepth : q.depth - 1 = around p (.inside b items) := by rw [Descent.depth_of_expect h, around]
    rw [hstep] at hread
    cases r with
    | ok v => exact ⟨hdepth, hread⟩
    | error e => exact ⟨0, hdepth.trans (Int.add_zero _).symm, hread⟩
  | @item p q s u b items t v r h hne _ _ ih ih' =>
    have hread := readFrom_of_expect here (.group b items) frames h
    obtain ⟨hdepth, hform⟩ := ih (.group b items :: frames) (by rintro _ _ _ ⟨⟩; exact hne)
    have hbehind := ih' frames trivial
    -- The form joins the items, and reading goes on behind it.
    have heq : readTask here p frames (.inside b items) = readTask here s frames (.inside b (v :: items)) :=
      hread.trans hform
    have haround : around p (.inside b items) = around s (.inside b (v :: items)) :=
      congrArg (· - 1) (hdepth.trans (Descent.depth_of_expect h)).symm
    rwa [heq, haround]
  | @itemFails p q s b items t e h hne _ ih =>
    have hread := readFrom_of_expect here (.group b items) frames h
    obtain ⟨d, hdepth, hform⟩ := ih (.group b items :: frames) (by rintro _ _ _ ⟨⟩; exact hne)
    have hopen : depth (.group b items :: frames) + d = depth frames + (d + 1) := Nat.add_right_comm _ _ _
    rw [hopen] at hform
    refine ⟨d + 1, ?_, hread.trans hform⟩
    rw [hdepth, around, around, Descent.depth_of_expect h]
    omega

end Reader

end SmallLisp
