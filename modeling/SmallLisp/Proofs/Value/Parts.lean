import SmallLisp.Proofs.Value.Entries

/-!
# Parts of values, and the order of maps

What stands somewhere inside a value (`Value.Part`), and the value with the entries of its maps, and of the maps
inside it, in another order (`Value.inOrder`). The reordered value is equal to the value itself
(`Value.equal_inOrder`), and what has no parts stands inside the one if it stands inside the other
(`Value.part_inOrder`).
-/

namespace SmallLisp.Value

variable {a v : Value} {id : ObjectId} {items : List Value} {entries : List (Value × Value)}

/-- The first value is the second one, or stands somewhere inside it. -/
inductive Part (a : Value) : Value → Prop
  /-- It is the value itself. -/
  | self : Part a a
  /-- It stands inside an item of a list. -/
  | list {id : ObjectId} {items : List Value} {v : Value} (hv : v ∈ items) (h : Part a v) :
    Part a (.list id items)
  /-- It stands inside an item of a vector. -/
  | vector {id : ObjectId} {items : List Value} {v : Value} (hv : v ∈ items) (h : Part a v) :
    Part a (.vector id items)
  /-- It stands inside a key of a map. -/
  | key {id : ObjectId} {entries : List (Value × Value)} {e : Value × Value} (he : e ∈ entries)
    (h : Part a e.1) : Part a (.map id entries)
  /-- It stands inside a value of a map. -/
  | value {id : ObjectId} {entries : List (Value × Value)} {e : Value × Value} (he : e ∈ entries)
    (h : Part a e.2) : Part a (.map id entries)

/-- Nothing else stands inside what has no parts. -/
theorem part_atom_iff {x : Atom} (hv : v.view = .atom x) : Part a v ↔ a = v := by
  constructor
  · intro h
    cases h with
    | self => rfl
    | _ => cases hv
  · rintro rfl
    exact .self

section

variable {x : Atom} (ha : a.view = .atom x)
include ha

theorem part_list_iff : Part a (list id items) ↔ ∃ v ∈ items, Part a v := by
  constructor
  · rintro (_ | ⟨hv, h⟩)
    · cases ha
    · exact ⟨_, hv, h⟩
  · rintro ⟨v, hv, h⟩
    exact .list hv h

theorem part_vector_iff : Part a (vector id items) ↔ ∃ v ∈ items, Part a v := by
  constructor
  · rintro (_ | _ | ⟨hv, h⟩)
    · cases ha
    · exact ⟨_, hv, h⟩
  · rintro ⟨v, hv, h⟩
    exact .vector hv h

theorem part_map_iff : Part a (map id entries) ↔ ∃ e ∈ entries, Part a e.1 ∨ Part a e.2 := by
  constructor
  · rintro (_ | _ | _ | ⟨he, h⟩ | ⟨he, h⟩)
    · cases ha
    · exact ⟨_, he, .inl h⟩
    · exact ⟨_, he, .inr h⟩
  · rintro ⟨e, he, h | h⟩
    · exact .key he h
    · exact .value he h

end

/-! ## Another order -/

/-- An order for the entries of each map. -/
structure MapOrder where
  /-- The entries of a map in this order. -/
  arrange : ObjectId → List (Value × Value) → List (Value × Value)
  /-- They are the same entries. -/
  perm : ∀ id entries, (arrange id entries).Perm entries

mutual

/-- The value with the entries of each map in the given order. -/
def inOrder (order : MapOrder) : Value → Value
  | list id items => list id (itemsInOrder order items)
  | vector id items => vector id (itemsInOrder order items)
  | map id entries => map id (order.arrange id (entriesInOrder order entries))
  | v => v

/-- Values with the entries of each map in the given order. -/
def itemsInOrder (order : MapOrder) : List Value → List Value
  | [] => []
  | v :: vs => v.inOrder order :: itemsInOrder order vs

/-- Entries whose keys and values have the entries of each map in the given order. -/
def entriesInOrder (order : MapOrder) : List (Value × Value) → List (Value × Value)
  | [] => []
  | (k, v) :: es => (k.inOrder order, v.inOrder order) :: entriesInOrder order es

end

attribute [grind =] inOrder itemsInOrder entriesInOrder

variable {order : MapOrder}

theorem itemsInOrder_eq_map (vs : List Value) : itemsInOrder order vs = vs.map (inOrder order) := by
  induction vs with
  | nil => rfl
  | cons v vs ih => rw [itemsInOrder, ih, List.map_cons]

theorem entriesInOrder_eq_map (es : List (Value × Value)) :
    entriesInOrder order es = es.map fun e => (e.1.inOrder order, e.2.inOrder order) := by
  induction es with
  | nil => rfl
  | cons e es ih => rw [entriesInOrder, ih, List.map_cons]

mutual

/-- A value is equal to itself in another order. -/
theorem equal_inOrder : (v : Value) → equal (v.inOrder order) v = true
  | list id items => by
    rw [inOrder, equal]
    exact equalItems_iff_forall₂.mpr (equal_itemsInOrder items)
  | vector id items => by
    rw [inOrder, equal]
    exact equalItems_iff_forall₂.mpr (equal_itemsInOrder items)
  | map id entries => by
    rw [inOrder]
    exact equal_map_of_perm id id (order.perm id _) (equal_entriesInOrder entries)
  | nil | bool _ | int _ | float _ | str _ _ | symbol _ | keyword _ | native _ | function _ | ns _
  | var _ => equal_self _

theorem equal_itemsInOrder : (vs : List Value) →
    List.Forall₂ (equal · · = true) (itemsInOrder order vs) vs
  | [] => .nil
  | v :: vs => .cons (equal_inOrder v) (equal_itemsInOrder vs)

theorem equal_entriesInOrder : (es : List (Value × Value)) →
    List.Forall₂ EntryEqual (entriesInOrder order es) es
  | [] => .nil
  | (k, v) :: es => .cons ⟨equal_inOrder k, equal_inOrder v⟩ (equal_entriesInOrder es)

end

/-- The entries of a map have different keys in another order too. -/
theorem DistinctKeys.inOrder (h : DistinctKeys entries) :
    DistinctKeys (order.arrange id (entriesInOrder order entries)) :=
  (h.congr (equal_entriesInOrder entries)).perm (order.perm id _).symm

mutual

/-- The order does not matter to what stands inside. -/
theorem part_inOrder {x : Atom} (ha : a.view = .atom x) :
    (v : Value) → (Part a (v.inOrder order) ↔ Part a v)
  | list id items => by
    rw [inOrder, part_list_iff ha, part_list_iff ha]
    exact part_itemsInOrder ha items
  | vector id items => by
    rw [inOrder, part_vector_iff ha, part_vector_iff ha]
    exact part_itemsInOrder ha items
  | map id entries => by
    rw [inOrder, part_map_iff ha, part_map_iff ha, ← part_entriesInOrder ha entries]
    simp only [(order.perm id _).mem_iff]
  | nil | bool _ | int _ | float _ | str _ _ | symbol _ | keyword _ | native _ | function _ | ns _
  | var _ => .rfl

theorem part_itemsInOrder {x : Atom} (ha : a.view = .atom x) : (vs : List Value) →
    ((∃ v ∈ itemsInOrder order vs, Part a v) ↔ ∃ v ∈ vs, Part a v)
  | [] => .rfl
  | v :: vs => by
    rw [itemsInOrder, List.exists_mem_cons_iff, List.exists_mem_cons_iff, part_inOrder ha v,
      part_itemsInOrder ha vs]

theorem part_entriesInOrder {x : Atom} (ha : a.view = .atom x) : (es : List (Value × Value)) →
    ((∃ e ∈ entriesInOrder order es, Part a e.1 ∨ Part a e.2) ↔ ∃ e ∈ es, Part a e.1 ∨ Part a e.2)
  | [] => .rfl
  | (k, v) :: es => by
    rw [entriesInOrder, List.exists_mem_cons_iff, List.exists_mem_cons_iff, part_inOrder ha k,
      part_inOrder ha v, part_entriesInOrder ha es]

end

end SmallLisp.Value
