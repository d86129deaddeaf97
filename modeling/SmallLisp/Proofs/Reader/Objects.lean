import SmallLisp.Proofs.Action.Objects
import SmallLisp.Reader

/-!
# The objects that reading makes

Each string and each collection of a text is made an object as soon as it is complete, and what it holds has been
made before. So a form that has been read is among the objects there are then (`Makes.take`).
-/

namespace SmallLisp

variable {α : Type} {os more : Objects} {P : Objects → α → Prop}

/-- Something leaves a world with these objects and perhaps further ones, and a result that is as `P` says of
them. -/
def Leaves (os : Objects) (P : Objects → α → Prop) (r : α × World) : Prop :=
  ∃ more, os <+: more ∧ r.2.Consists more ∧ P more r.1

theorem Leaves.of_extended {r : α × World} (h : Leaves more P r) (hmore : os <+: more) : Leaves os P r := by
  obtain ⟨later, hlater, hw, hx⟩ := h
  exact ⟨later, hmore.trans hlater, hw, hx⟩

theorem Makes.of_leaves {f : World → α × World} (h : ∀ w : World, w.Consists os → Leaves os P (f w)) :
    Makes id os P (Action.update f) := by
  intro w hw
  obtain ⟨more, hmore, hu, hx⟩ := h w hw
  exact .ok hmore hu hx

/-- What has been read inside a bracket is among the objects. -/
def Frame.Among (os : Objects) : Frame → Prop
  | .quote => True
  | .group _ items => Value.AllAmong os items

theorem Frame.Among.mono {frame : Frame} (h : frame.Among os) (hmore : os <+: more) : frame.Among more := by
  cases frame with
  | quote => trivial
  | group b items => exact Value.AllAmong.mono h hmore

/-- What a token leads to is among the objects: a form, or what has been read inside all open brackets. -/
def ReadStep.Among (os : Objects) : ReadStep → Prop
  | .form v => v.Among os
  | .pending frames => ∀ frame ∈ frames, frame.Among os
  | .refused _ _ => True

/-- A form that has been read is among the objects. -/
abbrev ResultAmong (os : Objects) (result : Option (Except Error Value)) : Prop :=
  ∀ v, result = some (.ok v) → v.Among os

namespace Reader

variable {w : World} {here : Site} {frames : List Frame} {items : List Value}

theorem leaves_supply (hw : w.Consists os) {v : Value} (hv : v.Among os)
    (hframes : ∀ frame ∈ frames, frame.Among os) : Leaves os ReadStep.Among (supply w v frames) := by
  induction frames generalizing w v os with
  | nil => exact ⟨os, List.prefix_rfl, hw, hv⟩
  | cons frame frames ih =>
    obtain ⟨hframe, hrest⟩ := List.forall_mem_cons.mp hframes
    cases frame with
    | quote =>
      -- The form becomes part of a list that is made now.
      obtain ⟨more, hmore, hu, hid⟩ := hw.exists_add (a := .list w.newObject.1 [.symbol quoteSymbol, v]) nofun
      have hitems : Value.AllAmong more [.symbol quoteSymbol, v] :=
        .cons (Value.among_of_noObject rfl) (.cons (hv.mono hmore) Value.allAmong_nil)
      have hlist := Value.among_list.mpr ⟨hid, hitems⟩
      exact (ih hu hlist fun f hf => (hrest f hf).mono hmore).of_extended hmore
    | group b items =>
      exact ⟨os, List.prefix_rfl, hw, List.forall_mem_cons.mpr ⟨Value.AllAmong.cons hv hframe, hrest⟩⟩

/-- An object is made and handed to what is open around it. -/
theorem leaves_supply_new (hw : w.Consists os) {v : Value}
    (hmap : ∀ id entries, v = .map id entries → Value.DistinctKeys entries)
    (hv : ∀ more, os <+: more → more[w.newObject.1]? = some v → v.Among more)
    (hframes : ∀ frame ∈ frames, frame.Among os) : Leaves os ReadStep.Among (supply w.newObject.2 v frames) := by
  obtain ⟨more, hmore, hu, hid⟩ := hw.exists_add hmap
  have hsupplied := leaves_supply hu (hv more hmore hid) fun f hf => (hframes f hf).mono hmore
  exact hsupplied.of_extended hmore

theorem leaves_close (hw : w.Consists os) (b : Bracket) (hitems : Value.AllAmong os items)
    (hframes : ∀ frame ∈ frames, frame.Among os) : Leaves os ReadStep.Among (close w b items frames) := by
  unfold close
  cases b with
  | round =>
    exact leaves_supply_new hw nofun (fun _ hmore hid => Value.among_list.mpr ⟨hid, hitems.mono hmore⟩) hframes
  | square =>
    exact leaves_supply_new hw nofun (fun _ hmore hid => Value.among_vector.mpr ⟨hid, hitems.mono hmore⟩) hframes
  | curly =>
    dsimp only
    split
    · have hentries := (Value.entriesAmong_pairUp hitems).entriesOf
      have hkeys : ∀ id entries, Value.map w.newObject.1 (Value.entriesOf (Value.pairUp items)) = .map id entries →
          Value.DistinctKeys entries := by
        rintro _ _ ⟨⟩
        exact Value.distinctKeys_entriesOf _
      exact leaves_supply_new hw hkeys (fun _ hmore hid => Value.among_map.mpr ⟨hid, hentries.mono hmore⟩) hframes
    · exact ⟨os, List.prefix_rfl, hw, trivial⟩

theorem objectId?_ofSymbolText (text : String) : (Value.ofSymbolText text).objectId? = none := by
  unfold Value.ofSymbolText
  split_ifs <;> rfl

theorem leaves_step (hw : w.Consists os) (hframes : ∀ frame ∈ frames, frame.Among os) (token : Token) :
    Leaves os ReadStep.Among (step w here frames token) := by
  have unchanged {s : ReadStep} (hs : s.Among os) : Leaves os ReadStep.Among (s, w) :=
    ⟨os, List.prefix_rfl, hw, hs⟩
  unfold step
  cases token with
  | int n => exact leaves_supply hw (Value.among_of_noObject rfl) hframes
  | float x => exact leaves_supply hw (Value.among_of_noObject rfl) hframes
  | str text => exact leaves_supply_new hw nofun (fun _ _ hid => Value.among_str.mpr hid) hframes
  | symbol text => exact leaves_supply hw (Value.among_of_noObject (objectId?_ofSymbolText text)) hframes
  | keyword text auto =>
    have hread := hw.readKeyword here (Symbol.parse text) auto
    dsimp only
    split
    · rename_i heq
      rw [heq] at hread
      exact leaves_supply hread (Value.among_of_noObject rfl) hframes
    · rename_i heq
      rw [heq] at hread
      exact ⟨os, List.prefix_rfl, hread, trivial⟩
  | quote => exact unchanged (List.forall_mem_cons.mpr ⟨trivial, hframes⟩)
  | opening b => exact unchanged (List.forall_mem_cons.mpr ⟨Value.allAmong_nil, hframes⟩)
  | closing b =>
    dsimp only
    split
    · obtain ⟨hgroup, houter⟩ := List.forall_mem_cons.mp hframes
      split
      · exact leaves_close hw b (fun v hv => hgroup v (List.mem_reverse.mp hv)) houter
      · exact unchanged trivial
    · exact unchanged trivial

theorem leaves_readFrom (hw : w.Consists os) (hframes : ∀ frame ∈ frames, frame.Among os)
    (lexemes : List Lexeme) :
    Leaves os ResultAmong ((readFrom w here frames lexemes).result, (readFrom w here frames lexemes).world) := by
  induction lexemes generalizing w frames os with
  | nil => cases frames <;> exact ⟨os, List.prefix_rfl, hw, by rintro _ ⟨⟩⟩
  | cons l lexemes ih =>
    simp only [readFrom]
    cases l.result with
    | error e => exact ⟨os, List.prefix_rfl, hw, by rintro _ ⟨⟩⟩
    | ok token =>
      have hstep : Leaves os ReadStep.Among (step w here frames token) := leaves_step hw hframes token
      dsimp only
      generalize step w here frames token = r at *
      obtain ⟨s, u⟩ := r
      obtain ⟨more, hmore, hu, hs⟩ := hstep
      cases s with
      | form v => exact ⟨more, hmore, hu, by rintro _ ⟨⟩; exact hs⟩
      | pending frames => exact (ih hu hs).of_extended hmore
      | refused e depth => exact ⟨more, hmore, hu, nofun⟩

end Reader

/-- The next form is read. -/
theorem Makes.take {here : Site} (lexemes : List Lexeme) :
    Makes id os (fun more t => ResultAmong more t.1) (Action.update (Reader.take · here lexemes)) := by
  have hnone : ∀ frame ∈ ([] : List Frame), frame.Among os := nofun
  exact of_leaves fun _ hw => Reader.leaves_readFrom hw hnone lexemes

end SmallLisp
