import SmallLisp.Proofs.Value.Entries
import SmallLisp.Value.Hash

/-!
# Hashing agrees with equality

Equal values write alike into a hasher (`Hashing.writes_eq_of_equal`): lists and vectors write their elements in
turn, and the numbers of the entries of a map are added up in any order. So values are lawful keys of a hash table,
and what it holds after pairs have been put into it is what the entries hold that they make
(`Hashing.getElem?_tableOf`).
-/

namespace SmallLisp

open Value

namespace Hashing

variable (H : Hashing) {as bs : List (Value × Value)}

/-! ## Equal values write alike -/

/-- What a value without parts writes. -/
def atomWrites : Atom → List HashWrite
  | .nil => [.byte 0]
  | .bool b => boolWrites b
  | .int n => [.int n]
  | .float bits => [.word bits]
  | .str text => [.text text]
  | .symbol s => H.symbolWrites s
  | .keyword s resolved => H.symbolWrites s ++ boolWrites resolved
  | .native f => [.text f.name]
  | .function id => [.size (H.functionAt id)]
  | .ns id => [.size (H.namespaceAt id)]
  | .var id => [.size (H.varAt id)]

/-- What a value writes, by what a comparison sees of it. -/
def viewWrites : View → List HashWrite
  | .atom a => H.atomWrites a
  | .items vs => .size (.ofNat vs.length) :: H.writesAll vs
  | .entries es => [.size (.ofNat es.length), .word (H.combined es)]

theorem writes_eq_viewWrites (v : Value) : H.writes v = H.viewWrites v.view := by
  cases v <;> rw [writes] <;> rfl

/-- The order of the entries does not matter. -/
theorem combined_perm (h : as.Perm bs) : H.combined as = H.combined bs := by
  induction h with
  | nil => rfl
  | cons e _ ih => rw [combined, combined, ih]
  | swap e d es =>
    simp only [combined]
    rw [← UInt64.add_assoc, ← UInt64.add_assoc, UInt64.add_comm (H.finish (H.writes d.1 ++ H.writes d.2))]
  | trans _ _ ih ih' => exact ih.trans ih'

/-- Values that are equal write alike if their parts do: elements side by side, entries once they are paired
off. -/
theorem writes_eq_of_parts {a b : Value}
    (hitems : ∀ as bs, a.view = .items as → List.Forall₂ (equal · · = true) as bs →
      H.writesAll as = H.writesAll bs)
    (hentries : ∀ as bs, a.view = .entries as → List.Forall₂ EntryEqual as bs → H.combined as = H.combined bs)
    (h : equal a b = true) : H.writes a = H.writes b := by
  rw [writes_eq_viewWrites, writes_eq_viewWrites]
  have halike := equal_iff_view.mp h
  generalize a.view = va at *
  generalize b.view = vb at *
  cases halike with
  | atom x => rfl
  | items hall => rw [viewWrites, viewWrites, hall.length_eq, hitems _ _ rfl hall]
  | entries hequal =>
    -- Paired off one by one the numbers agree, and the order does not matter to their sum.
    obtain ⟨cs, hperm, hcs⟩ := paired_of_equalEntries hequal
    rw [viewWrites, viewWrites, hcs.length_eq, hentries _ _ rfl hcs, hperm.length_eq, H.combined_perm hperm]

mutual

/-- Equal values write alike. -/
theorem writes_eq_of_equal : (a : Value) → {b : Value} → equal a b = true → H.writes a = H.writes b
  | .list _ items, _, h => by
    refine H.writes_eq_of_parts ?_ nofun h
    rintro _ bs ⟨⟩
    exact writesAll_eq items
  | .vector _ items, _, h => by
    refine H.writes_eq_of_parts ?_ nofun h
    rintro _ bs ⟨⟩
    exact writesAll_eq items
  | .map _ entries, _, h => by
    refine H.writes_eq_of_parts nofun ?_ h
    rintro _ bs ⟨⟩
    exact combined_eq entries
  | .nil, _, h | .bool _, _, h | .int _, _, h | .float _, _, h | .str _ _, _, h | .symbol _, _, h
  | .keyword _, _, h | .native _, _, h | .function _, _, h | .ns _, _, h | .var _, _, h =>
    H.writes_eq_of_parts nofun nofun h

/-- Sequences that are equal element by element write alike. -/
theorem writesAll_eq : (as : List Value) → {bs : List Value} → List.Forall₂ (equal · · = true) as bs →
    H.writesAll as = H.writesAll bs
  | [], _, .nil => rfl
  | a :: as, _, .cons h hs => by rw [writesAll, writesAll, writes_eq_of_equal a h, writesAll_eq as hs]

/-- Entries that are equal one by one have the same sum. -/
theorem combined_eq : (as : List (Value × Value)) → {bs : List (Value × Value)} →
    List.Forall₂ EntryEqual as bs → H.combined as = H.combined bs
  | [], _, .nil => rfl
  | (k, v) :: as, _, .cons h hs => by
    rw [combined, combined, writes_eq_of_equal k h.1, writes_eq_of_equal v h.2, combined_eq as hs]

end

/-! ## Hash tables -/

/-- A value as a key of a hash table. The hasher of a table may be another one than that of the entries of maps. -/
structure Key (H : Hashing) (seeded : List HashWrite → UInt64) where
  /-- The value. -/
  value : Value

variable {seeded : List HashWrite → UInt64}

instance : BEq (Key H seeded) := ⟨fun a b => equal a.value b.value⟩

instance : Hashable (Key H seeded) := ⟨fun a => seeded (H.writes a.value)⟩

/-- The keys of tables are compared by an equivalence. -/
instance : EquivBEq (Key H seeded) where
  rfl {a} := equal_self a.value
  symm {a b} h := (equal_comm b.value a.value).trans h
  trans h h' := equal_trans h h'

/-- Equal keys have one hash. -/
instance : LawfulHashable (Key H seeded) where
  hash_eq a _ h := congrArg seeded (H.writes_eq_of_equal a.value h)

end Hashing

end SmallLisp
