import Mathlib.Data.List.Induction
import SmallLisp.Proofs.Value.Equivalence

/-!
# Entries with different keys

The entries of a map have different keys (`Value.DistinctKeys`). Entering a pair keeps them different,
whatever pairs have been entered before (`Value.distinctKeys_entriesOf`), and pairs with different keys are all
kept, in their order (`Value.entriesOf_eq_self`). Of pairs with equal keys the last one counts
(`Value.lastWins_entriesOf`). To equality the order of the entries does not matter
(`Value.equal_map_of_perm`).
-/

namespace SmallLisp.Value

variable {as bs cs es pairs : List (Value × Value)} {e : Value × Value} {k v : Value}

/-- No two entries have equal keys. -/
def DistinctKeys (entries : List (Value × Value)) : Prop :=
  entries.Pairwise fun a b => equal a.1 b.1 = false

/-! ## Entering -/

theorem mem_insert (h : e ∈ insert k v es) : e = (k, v) ∨ e ∈ es := by
  induction es with
  | nil => exact .inl (List.mem_singleton.mp h)
  | cons d es ih =>
    unfold insert at h
    split at h
    · exact (List.mem_cons.mp h).imp_right (List.mem_cons_of_mem _)
    · obtain rfl | h := List.mem_cons.mp h
      · exact .inr (List.mem_cons_self ..)
      · exact (ih h).imp_right (List.mem_cons_of_mem _)

theorem DistinctKeys.insert (h : DistinctKeys es) (k v : Value) : DistinctKeys (insert k v es) := by
  induction es with
  | nil => exact List.pairwise_singleton ..
  | cons d es ih =>
    obtain ⟨hd, hes⟩ := List.pairwise_cons.mp h
    unfold Value.insert
    split
    · rename_i hdk
      -- The keys behind differ from the new key as they did from the old one.
      refine List.pairwise_cons.mpr ⟨fun e he => ?_, hes⟩
      rw [← equal_congr hdk (equal_self e.1)]
      exact hd e he
    · rename_i hdk
      refine List.pairwise_cons.mpr ⟨fun e he => ?_, ih hes⟩
      obtain rfl | he := mem_insert he
      · exact Bool.eq_false_iff.mpr hdk
      · exact hd e he

/-- A pair with a new key comes last. -/
theorem insert_of_new (h : ∀ e ∈ es, equal e.1 k = false) : insert k v es = es ++ [(k, v)] := by
  induction es with
  | nil => rfl
  | cons d es ih =>
    obtain ⟨hd, hes⟩ := List.forall_mem_cons.mp h
    rw [insert, hd, if_neg Bool.false_ne_true, ih hes]
    rfl

/-- What holds of no entries, and is kept when one of the pairs is entered, holds of the entries that they
make. -/
theorem entriesOf_induction {P : List (Value × Value) → Prop} (nil : P [])
    (insert : ∀ es, P es → ∀ p ∈ pairs, P (insert p.1 p.2 es)) : P (entriesOf pairs) :=
  List.foldlRecOn pairs _ nil insert

/-- Whatever is entered, the keys differ. -/
theorem distinctKeys_entriesOf (pairs : List (Value × Value)) : DistinctKeys (entriesOf pairs) :=
  entriesOf_induction .nil fun _ hes p _ => hes.insert p.1 p.2

/-- Nothing but what is entered is an entry. -/
theorem mem_of_mem_entriesOf : ∀ e ∈ entriesOf pairs, e ∈ pairs := by
  refine entriesOf_induction (P := fun es => ∀ e ∈ es, e ∈ pairs) nofun ?_
  intro es hes p hp e he
  obtain rfl | he := mem_insert he
  · exact hp
  · exact hes e he

/-- What is paired up stood among the elements. -/
theorem mem_of_mem_pairUp : {items : List Value} → e ∈ pairUp items → e.1 ∈ items ∧ e.2 ∈ items
  | k :: v :: rest, h => by
    rw [pairUp] at h
    obtain rfl | h := List.mem_cons.mp h
    · exact ⟨List.mem_cons_self .., List.mem_cons_of_mem _ (List.mem_cons_self ..)⟩
    · have hrest : ∀ x ∈ rest, x ∈ k :: v :: rest := fun x hx =>
        List.mem_cons_of_mem _ (List.mem_cons_of_mem _ hx)
      exact (mem_of_mem_pairUp h).imp (hrest _) (hrest _)
  | [_], h => nomatch h
  | [], h => nomatch h

/-- Pairs with different keys are all kept. -/
theorem entriesOf_eq_self (h : DistinctKeys pairs) : entriesOf pairs = pairs := by
  have hfold : ∀ ps es : List (Value × Value), DistinctKeys (es ++ ps) →
      ps.foldl (fun entries e => Value.insert e.1 e.2 entries) es = es ++ ps := by
    intro ps
    induction ps with
    | nil => exact fun es _ => (List.append_nil es).symm
    | cons p ps ih =>
      intro es hdistinct
      have hnew : ∀ e ∈ es, equal e.1 p.1 = false := fun e he =>
        (List.pairwise_append.mp hdistinct).2.2 e he p (List.mem_cons_self ..)
      have hinsert : Value.insert p.1 p.2 es = es ++ [p] := insert_of_new hnew
      rw [List.append_cons] at hdistinct ⊢
      exact (congrArg (ps.foldl _) hinsert).trans (ih _ hdistinct)
  exact hfold pairs [] h

/-! ## Looking up -/

/-- What is found under a key is found under every key that is equal to it. -/
theorem lookup_congr {key key' : Value} (h : equal key key' = true) (entries : List (Value × Value)) :
    lookup key entries = lookup key' entries := by
  induction entries with
  | nil => rfl
  | cons entry entries ih =>
    obtain ⟨k, x⟩ := entry
    unfold lookup
    rw [equal_congr (equal_self k) h, ih]

/-- What is looked up after a pair has been entered is the pair, or what it was. -/
theorem lookup_insert (key : Value) :
    lookup key (insert k v es) = if equal k key then some v else lookup key es := by
  induction es with
  | nil => rfl
  | cons d es ih =>
    by_cases hdk : equal d.1 k = true
    · have hkeys : equal d.1 key = equal k key := equal_congr hdk (equal_self key)
      rw [insert, if_pos hdk, lookup, lookup, hkeys]
      split <;> rfl
    · rw [insert, if_neg hdk, lookup, lookup, ih]
      by_cases hkey : equal k key = true
      · have hdiffer : ¬ equal d.1 key = true := fun hd =>
          hdk (equal_trans hd (by rw [equal_comm]; exact hkey))
        rw [if_neg hdiffer, if_pos hkey, if_pos hkey]
      · rw [if_neg hkey, if_neg hkey]

/-- The entries have different keys, and under each key they hold what the last pair with that key holds. -/
structure LastWins (pairs entries : List (Value × Value)) : Prop where
  /-- The keys are different. -/
  distinct : DistinctKeys entries
  /-- The last pair counts. -/
  lookup (key : Value) :
    lookup key entries = (pairs.reverse.find? fun e => equal e.1 key).map Prod.snd

/-- Of the pairs that are entered one after the other, the last one with a key counts. -/
theorem lastWins_entriesOf (pairs : List (Value × Value)) : LastWins pairs (entriesOf pairs) := by
  refine ⟨distinctKeys_entriesOf pairs, fun key => ?_⟩
  induction pairs using List.reverseRecOn with
  | nil => rfl
  | append_singleton pairs p ih =>
    have hlast : entriesOf (pairs ++ [p]) = insert p.1 p.2 (entriesOf pairs) := List.foldl_append
    rw [hlast, lookup_insert, ih, List.reverse_append, List.reverse_singleton, List.singleton_append,
      List.find?_cons]
    cases equal p.1 key <;> rfl

/-! ## Other entries, and another order -/

theorem DistinctKeys.perm (h : DistinctKeys as) (hperm : as.Perm bs) : DistinctKeys bs :=
  hperm.pairwise h fun {a b} hab => equal_comm b.1 a.1 ▸ hab

/-- Entries that are equal to entries with different keys have different keys. -/
theorem DistinctKeys.congr (h : DistinctKeys bs) (hequal : List.Forall₂ EntryEqual as bs) :
    DistinctKeys as := by
  induction hequal with
  | nil => exact .nil
  | @cons a b as bs hab hequal ih =>
    obtain ⟨hb, hbs⟩ := List.pairwise_cons.mp h
    refine List.pairwise_cons.mpr ⟨fun a' ha' => ?_, ih hbs⟩
    obtain ⟨i, hi, rfl⟩ := List.getElem_of_mem ha'
    have hi' : i < bs.length := hequal.length_eq ▸ hi
    have hkeys : equal as[i].1 bs[i].1 = true := (hequal.get hi hi').1
    rw [equal_congr hab.1 hkeys]
    exact hb _ (List.getElem_mem hi')

/-- The order of the entries does not matter. -/
theorem equal_map_of_perm (id id' : ObjectId) (hperm : as.Perm bs)
    (hequal : List.Forall₂ EntryEqual bs cs) : equal (map id as) (map id' cs) = true := by
  obtain ⟨ds, hds, hdperm⟩ := List.perm_comp_forall₂ hperm hequal
  rw [equal]
  exact (equalEntries_iff_paired fun e _ => ⟨tame e.1, tame e.2⟩).mpr ⟨ds, hdperm.symm, hds⟩

end SmallLisp.Value
