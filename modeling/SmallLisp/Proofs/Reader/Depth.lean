import SmallLisp.Proofs.Reader.Descent
import SmallLisp.Proofs.Reader.Results
import SmallLisp.Proofs.Session.Reachable

/-!
# The count of open brackets

A reader that descends gives a bad form up by closing what it has opened: it takes tokens, one in each turn of a loop
(`Descent.turn`), until as many brackets are closed as are open, or the text ends. The loop ends after at most one turn
more than there are characters, and the count never falls below zero on the way (`Descent.recovers`). So nothing is
open before each form (`Next.agrees`), and a text has no more forms, good or bad, than characters
(`reading_progresses`).
-/

namespace SmallLisp

variable {here : Site} {p q : Descent} {rs : List (Except Error Value)}

namespace Descent

/-! ## Recovery -/

/-- One turn of the loop that closes what is open, as long as something is. -/
def turn (p : Descent) : Descent :=
  if 0 < p.depth then
    match p.cursor.advance with
    | (some (.ok (.opening _)), c) => { p with cursor := c, depth := p.depth + 1 }
    | (some (.ok (.closing _)), c) => { p with cursor := c, depth := p.depth - 1 }
    | (some _, c) => { p with cursor := c }
    | (none, c) => { p with cursor := c, depth := 0 }
  else p

/-- What the loop leaves: there are not more turns to it than this. -/
def recovered (p : Descent) : Descent := turn^[p.cursor.rest.length + 1] p

/-- The loop stops where nothing is open. -/
theorem turn_eq_self (h : p.depth ≤ 0) : p.turn = p := if_neg (Int.not_lt.mpr h)

theorem iterate_turn_eq_self (h : p.depth ≤ 0) (n : Nat) : turn^[n] p = p :=
  Function.iterate_fixed (turn_eq_self h) n

theorem depth_turn_nonneg (h : 0 ≤ p.depth) : 0 ≤ p.turn.depth := by
  unfold turn
  split
  · rename_i hopen
    split
    · exact Int.le_add_one h
    · exact Int.le_sub_one_of_lt hopen
    · exact h
    · exact Int.le_refl 0
  · exact h

theorem depth_iterate_turn_nonneg (h : 0 ≤ p.depth) (n : Nat) : 0 ≤ (turn^[n] p).depth := by
  induction n generalizing p with
  | zero => exact h
  | succ n ih =>
    rw [Function.iterate_succ_apply]
    exact ih (depth_turn_nonneg h)

theorem length_rest_turn_le (p : Descent) : p.turn.cursor.rest.length ≤ p.cursor.rest.length := by
  have hadvance := p.cursor.length_rest_advance_le
  unfold turn
  generalize p.cursor.advance = a at hadvance ⊢
  split
  · split <;> exact hadvance
  · exact Nat.le_refl _

theorem length_rest_recovered_le (p : Descent) : p.recovered.cursor.rest.length ≤ p.cursor.rest.length := by
  suffices h : ∀ n (p : Descent), (turn^[n] p).cursor.rest.length ≤ p.cursor.rest.length from h _ p
  intro n
  induction n with
  | zero => exact fun _ => Nat.le_refl _
  | succ n ih =>
    intro p
    rw [Function.iterate_succ_apply]
    exact (ih p.turn).trans p.length_rest_turn_le

/-- With more turns than there are characters, all that is open is closed, and as many tokens are passed over as by
the reader with frames. -/
theorem recovers {n d : Nat} (hd : p.depth = d) (hn : p.cursor.rest.length < n) :
    (turn^[n] p).depth = 0 ∧ (turn^[n] p).world = p.world ∧
      (turn^[n] p).cursor.lexemes = Reader.recover d p.cursor.lexemes := by
  induction n generalizing p d with
  | zero => exact absurd hn (Nat.not_lt_zero _)
  | succ n ih =>
    cases d with
    | zero =>
      rw [iterate_turn_eq_self hd.le]
      exact ⟨hd, rfl, (Reader.recover_zero _).symm⟩
    | succ d =>
      have hopen : 0 < p.depth := by omega
      have hlexemes := lexemes_advance p.cursor
      have hagain := p.cursor.advance_of_none
      have hlength := p.cursor.length_rest_advance
      have hturn : p.turn = _ := if_pos hopen
      rw [Function.iterate_succ_apply, hturn, hlexemes]
      generalize p.cursor.advance = a at hagain hlength ⊢
      obtain ⟨_ | r, c⟩ := a
      · have hnone : c.lexemes = [] := by rw [lexemes_advance, hagain rfl]
        rw [iterate_turn_eq_self (Int.le_refl 0)]
        exact ⟨rfl, rfl, hnone⟩
      · have hc : c.rest.length < n := Nat.lt_of_lt_of_le (hlength rfl) (Nat.le_of_lt_succ hn)
        match r with
        | .ok (.opening b) => exact ih (d := d + 2) (by dsimp only; omega) hc
        | .ok (.closing b) => exact ih (d := d) (by dsimp only; omega) hc
        | .error e => exact ih hd hc
        | .ok .quote | .ok (.int _) | .ok (.float _) | .ok (.str _) | .ok (.symbol _) | .ok (.keyword _ _) =>
          exact ih hd hc

theorem recovered_agrees {d : Nat} (hd : p.depth = d) : p.recovered.depth = 0 ∧ p.recovered.world = p.world ∧
    p.recovered.cursor.lexemes = Reader.recover d p.cursor.lexemes := recovers hd (Nat.lt_succ_self _)

end Descent

/-! ## Form by form -/

open Descent in
/-- The next form is taken, good or bad, if there is one. -/
inductive Next (here : Site) : Descent → Option (Except Error Value) → Descent → Prop
  | ends {p c} (h : p.cursor.advance = (none, c)) : Next here p none { p with cursor := c }
  | fault {p c e} (h : p.cursor.advance = (some (.error e), c)) :
    Next here p (some (.error (.lex e))) (recovered { p with cursor := c })
  | form {p q c t v} (h : p.cursor.advance = (some (.ok t), c))
    (form : Reads here { p with cursor := c } (.form t) (.ok v) q) : Next here p (some (.ok v)) q
  | fails {p q c t e} (h : p.cursor.advance = (some (.ok t), c))
    (form : Reads here { p with cursor := c } (.form t) (.error e) q) : Next here p (some (.error e)) q.recovered

namespace Next

/-- There always is an answer, and where it is a form or an error, the lexer has moved on. -/
theorem exists_next (here : Site) (p : Descent) :
    ∃ r q, Next here p r q ∧ (r.isSome → q.cursor.rest.length < p.cursor.rest.length) := by
  have hlength := p.cursor.length_rest_advance
  rcases h : p.cursor.advance with ⟨_ | e | t, c⟩
  · exact ⟨_, _, .ends h, nofun⟩
  · rw [h] at hlength
    exact ⟨_, _, .fault h, fun _ => (Descent.length_rest_recovered_le _).trans_lt (hlength rfl)⟩
  · rw [h] at hlength
    obtain ⟨r, q, hform, hle⟩ := Descent.exists_reads here { p with cursor := c } (.form t)
    cases r with
    | ok v => exact ⟨_, _, .form h hform, fun _ => hle.trans_lt (hlength rfl)⟩
    | error e =>
      have hrecovered := q.length_rest_recovered_le.trans hle
      exact ⟨_, _, .fails h hform, fun _ => hrecovered.trans_lt (hlength rfl)⟩

/-- Nothing is left open, and the answer is that of the reader with frames. -/
theorem agrees {r : Option (Except Error Value)} (h : Next here p r q) (hp : p.depth = 0) :
    q.depth = 0 ∧ Reader.next p.world here p.cursor.lexemes = ⟨r, q.cursor.lexemes, q.world⟩ := by
  have hagain := p.cursor.advance_of_none
  unfold Reader.next
  rw [Descent.lexemes_advance]
  cases h with
  | @ends c h =>
    have hnone : c.lexemes = [] := by
      rw [h] at hagain
      rw [Descent.lexemes_advance, hagain rfl]
    rw [h, hnone]
    exact ⟨hp, rfl⟩
  | @fault c e h =>
    rw [h]
    obtain ⟨hdepth, hworld, hlexemes⟩ := Descent.recovered_agrees (p := { p with cursor := c }) (d := 0) hp
    rw [hworld, hlexemes]
    exact ⟨hdepth, rfl⟩
  | @form _ c t v h form =>
    have hfits : Reader.Fits [] (.form t) := nofun
    obtain ⟨hdepth, hread⟩ := Reader.reads_agrees form [] hfits
    rw [h]
    exact ⟨hdepth.trans hp, (Reader.readFrom_ok _ _ _ _ _ _).trans hread⟩
  | @fails s c t e h form =>
    have hfits : Reader.Fits [] (.form t) := nofun
    obtain ⟨d, hdepth, hread⟩ := Reader.reads_agrees form [] hfits
    have hopen : s.depth = d := by
      rw [hdepth, Reader.around, hp, Int.zero_add]
    obtain ⟨hclosed, hworld, hlexemes⟩ := Descent.recovered_agrees hopen
    rw [h, hworld, hlexemes]
    refine ⟨hclosed, (Reader.readFrom_ok _ _ _ _ _ _).trans (hread.trans ?_)⟩
    rw [Reader.depth, Nat.zero_add]

end Next

/-- All forms to the end of the text are taken, good and bad. -/
inductive Yields (here : Site) : Descent → List (Except Error Value) → Descent → Prop
  | ends {p q : Descent} (h : Next here p none q) : Yields here p [] q
  | more {p q s : Descent} {r : Except Error Value} {rs : List (Except Error Value)} (h : Next here p (some r) q) (behind : Yields here q rs s) : Yields here p (r :: rs) s

namespace Yields

/-- There always is an end. -/
theorem exists_yields (here : Site) (p : Descent) : ∃ rs q, Yields here p rs q := by
  induction hn : p.cursor.rest.length using Nat.strongRecOn generalizing p with
  | ind n ih =>
    obtain ⟨r, q, hnext, hlt⟩ := Next.exists_next here p
    cases r with
    | none => exact ⟨[], q, .ends hnext⟩
    | some r =>
      obtain ⟨rs, s, hbehind⟩ := ih _ (hn ▸ hlt rfl) q rfl
      exact ⟨r :: rs, s, .more hnext hbehind⟩

/-- Nothing is left open in the end, and the forms are those of the reader with frames, no more than there are
lexemes. -/
theorem agrees (h : Yields here p rs q) (hp : p.depth = 0) {n : Nat} (hn : p.cursor.lexemes.length ≤ n) :
    q.depth = 0 ∧ Reader.resultsUpTo here n p.world p.cursor.lexemes = (rs, q.world) ∧
      rs.length ≤ p.cursor.lexemes.length := by
  induction h generalizing n with
  | @ends p q h =>
    obtain ⟨hdepth, hnext⟩ := h.agrees hp
    have hnone : p.cursor.lexemes = [] := (Reader.result_next_eq_none_iff p.world here _).mp (by rw [hnext])
    rw [hnone] at hnext ⊢
    have hworld : p.world = q.world := congrArg Reading.world hnext
    rw [Reader.resultsUpTo_nil, hworld]
    exact ⟨hdepth, rfl, Nat.le_refl _⟩
  | @more p q s r rs h _ ih =>
    obtain ⟨hdepth, hnext⟩ := h.agrees hp
    have hshorter : q.cursor.lexemes.length < p.cursor.lexemes.length := by
      cases hl : p.cursor.lexemes with
      | nil =>
        rw [hl] at hnext
        cases hnext
      | cons l ls =>
        have hlength := Reader.length_rest_readFrom p.world here [] l ls
        unfold Reader.next at hnext
        rw [← hl, hnext] at hlength
        rwa [hl] at hlength
    obtain ⟨m, rfl⟩ : ∃ m, n = m + 1 := ⟨n - 1, by omega⟩
    obtain ⟨hend, hbehind, hle⟩ := ih hdepth (n := m) (by omega)
    rw [Reader.resultsUpTo_of_read hnext, hbehind]
    exact ⟨hend, rfl, Nat.le_trans (Nat.succ_le_succ hle) hshorter⟩

end Yields

open Descent (turn recovered)

/-- The lexer moves on in every text, and the reader gets to the end of it. Anywhere in the text each step of the lexer
moves forward unless nothing is left (`Cursor.Advances`). A form is always read or given up, with as many brackets open
as before if it is read, and no fewer if it is given up. The loop that closes them ends with none open, after at most
one turn more than there are characters, and never closes one too many. So none is open after each form, and the text
gives no more forms, good and bad, than it has characters; they are those of the reader with frames. -/
theorem reading_progresses (here : Site) (w : World) (text : String) :
    (Cursor.start text).Within text ∧ (∀ c : Cursor, c.Within text → c.Advances text) ∧
    (∀ p t, (∃ r q, Reads here p (.form t) r q) ∧
      (∀ v q, Reads here p (.form t) (.ok v) q → q.depth = p.depth) ∧
      ∀ e q, Reads here p (.form t) (.error e) q → p.depth ≤ q.depth) ∧
    (∀ p, 0 ≤ p.depth → (∀ n, 0 ≤ (turn^[n] p).depth) ∧ (recovered p).depth = 0) ∧
    (∀ p, (∃ r q, Next here p r q) ∧ ∀ r q, p.depth = 0 → Next here p r q → q.depth = 0) ∧
    (∃ rs q, Yields here ⟨w, .start text, 0⟩ rs q) ∧
    ∀ rs q, Yields here ⟨w, .start text, 0⟩ rs q →
      q.depth = 0 ∧ Reader.results w here text = (rs, q.world) ∧ rs.length ≤ text.length := by
  refine ⟨Cursor.within_start text, fun c hc => hc.advances, fun p t => ⟨?_, fun v q h => ?_, fun e q h => ?_⟩,
    fun p hp => ⟨Descent.depth_iterate_turn_nonneg hp, ?_⟩,
    fun p => ⟨?_, fun r q hp h => (h.agrees hp).1⟩, Yields.exists_yields here _, fun rs q h => ?_⟩
  · obtain ⟨r, q, h, -⟩ := Descent.exists_reads here p (.form t)
    exact ⟨r, q, h⟩
  · exact (Reader.reads_agrees h [] nofun).1
  · obtain ⟨d, hdepth, -⟩ := Reader.reads_agrees h [] nofun
    rw [hdepth]
    exact Int.le_add_of_nonneg_right (Int.natCast_nonneg d)
  · obtain ⟨d, hd⟩ := Int.eq_ofNat_of_zero_le hp
    exact (Descent.recovered_agrees hd).1
  · obtain ⟨r, q, h, -⟩ := Next.exists_next here p
    exact ⟨r, q, h⟩
  · obtain ⟨hdepth, hresults, hlength⟩ := h.agrees rfl (Nat.le_refl _)
    have hlexemes := (Cursor.start text).length_lexemes_le
    rw [Cursor.start, String.length_toList] at hlexemes
    exact ⟨hdepth, hresults, hlength.trans hlexemes⟩

/-- A map with a key alone is given up with the list around it, and the form behind them is read. -/
theorem reading_progresses_oddMap :
    let here : Site := ⟨0, 0⟩
    let w := World.empty.after (.create 0 100)
    let text := "(a {1} b) 2"
    (Cursor.start text).Within text ∧ (Cursor.start text).Advances text ∧
      (recovered ⟨w, .start text, 2⟩).depth = 0 ∧
      ∃ q, Yields here ⟨w, .start text, 0⟩ [.error (.parse .oddMap), .ok (.int 2)] q ∧ q.depth = 0 := by
  have hresults : (Reader.results (World.empty.after (.create 0 100)) ⟨0, 0⟩ "(a {1} b) 2").1 =
      [.error (.parse .oddMap), .ok (.int 2)] := by cbv
  intro here w text
  obtain ⟨hstart, hlexer, -, hrecover, -, ⟨rs, q, h⟩, hyields⟩ := reading_progresses here w text
  obtain ⟨hdepth, hagrees, -⟩ := hyields rs q h
  rw [hagrees] at hresults
  exact ⟨hstart, hlexer _ hstart, (hrecover _ (by decide)).2, q, hresults ▸ h, hdepth⟩

end SmallLisp
