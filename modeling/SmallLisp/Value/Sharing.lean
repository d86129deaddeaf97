import SmallLisp.Value.Equality

/-!
# Comparing values that share parts

A list may hold the same list twice, and that list another one twice, and so on: such a value is
small in memory and large when written out. `agrees` compares two values without looking into a part
that is one and the same object on both sides, which is right because every value is equal to itself
(`equal_self`); its answer is that of `equal` (`agrees_eq_equal`).
-/

namespace SmallLisp.Value

mutual

/-- Every value is equal to itself. -/
theorem equal_self : (a : Value) → equal a a = true
  | nil => by simp [equal]
  | bool _ => by simp [equal]
  | int _ => by simp [equal]
  | float _ => by simp [equal]
  | str _ _ => by simp [equal]
  | symbol _ => by simp [equal]
  | keyword _ => by simp [equal]
  | list _ items => by simp [equal, equalItems_self items]
  | vector _ items => by simp [equal, equalItems_self items]
  | map _ entries => by simp [equal, equalEntries_self entries]
  | native _ => by simp [equal]
  | function _ => by simp [equal]
  | ns _ => by simp [equal]
  | var _ => by simp [equal]

/-- Every sequence is equal to itself. -/
theorem equalItems_self : (as : List Value) → equalItems as as = true
  | [] => by simp [equalItems]
  | a :: as => by simp [equalItems, equal_self a, equalItems_self as]

/-- Every list of entries can be paired off with itself. -/
theorem equalEntries_self : (as : List (Value × Value)) → equalEntries as as = true
  | [] => by simp [equalEntries]
  | (k, v) :: as => by
    simp [equalEntries, List.findIdx?_cons, equal_self k, equal_self v, equalEntries_self as]

end

/-- The answer of a comparison that is made only if the two values are not one and the same
object. -/
@[inline] def unlessShared (a b : Value) (compare : Unit → { r : Bool // r = equal a b }) :
    { r : Bool // r = equal a b } :=
  ⟨withPtrEq a b (fun _ => (compare ()).1) (fun h => by
    rw [(compare ()).2, h, equal_self]), (compare ()).2⟩

mutual

/-- Whether two values are equal, where shared parts are not looked into. -/
def agreeing : (a b : Value) → { r : Bool // r = equal a b }
  | list _ as, list _ bs => ⟨(agreeingItems as bs).1, by rw [(agreeingItems as bs).2, equal]⟩
  | list _ as, vector _ bs => ⟨(agreeingItems as bs).1, by rw [(agreeingItems as bs).2, equal]⟩
  | vector _ as, list _ bs => ⟨(agreeingItems as bs).1, by rw [(agreeingItems as bs).2, equal]⟩
  | vector _ as, vector _ bs => ⟨(agreeingItems as bs).1, by rw [(agreeingItems as bs).2, equal]⟩
  | map _ as, map _ bs => ⟨(agreeingEntries as bs).1, by rw [(agreeingEntries as bs).2, equal]⟩
  | a, b => ⟨equal a b, rfl⟩

/-- Whether two sequences are equal, where shared elements are not looked into. -/
def agreeingItems : (as bs : List Value) → { r : Bool // r = equalItems as bs }
  | [], [] => ⟨true, by rw [equalItems]⟩
  | [], _ :: _ => ⟨false, by rw [equalItems] <;> simp⟩
  | _ :: _, [] => ⟨false, by rw [equalItems] <;> simp⟩
  | a :: as, b :: bs =>
    let head := unlessShared a b fun _ => agreeing a b
    ⟨head.1 && (agreeingItems as bs).1, by rw [head.2, (agreeingItems as bs).2, equalItems]⟩

/-- Whether entries can be paired off, where shared keys and values are not looked into. -/
def agreeingEntries : (as bs : List (Value × Value)) → { r : Bool // r = equalEntries as bs }
  | [], bs => ⟨bs.isEmpty, by rw [equalEntries]⟩
  | (k, v) :: as, bs =>
    have same : (fun b : Value × Value =>
        (unlessShared k b.1 fun _ => agreeing k b.1).1 &&
          (unlessShared v b.2 fun _ => agreeing v b.2).1) =
        fun b => equal k b.1 && equal v b.2 :=
      funext fun b => by
        rw [(unlessShared k b.1 fun _ => agreeing k b.1).2,
          (unlessShared v b.2 fun _ => agreeing v b.2).2]
    match found : bs.findIdx? fun b =>
        (unlessShared k b.1 fun _ => agreeing k b.1).1 &&
          (unlessShared v b.2 fun _ => agreeing v b.2).1 with
    | some i => ⟨(agreeingEntries as (bs.eraseIdx i)).1, by
        rw [(agreeingEntries as (bs.eraseIdx i)).2, equalEntries, ← same, found]⟩
    | none => ⟨false, by rw [equalEntries, ← same, found]⟩

end

/-- Whether two values are equal, found without looking into the parts that they share. -/
def agrees (a b : Value) : Bool := (unlessShared a b fun _ => agreeing a b).1

/-- Passing over shared parts does not change the answer. -/
theorem agrees_eq_equal (a b : Value) : agrees a b = equal a b :=
  (unlessShared a b fun _ => agreeing a b).2

end SmallLisp.Value
