import Mathlib.Data.List.Induction
import SmallLisp.World.Copy
import SmallLisp.World.Create

/-!
# Generated names

A generated name is a stem followed by a number that has not been used before. So two of them have different
numbers, but the numeral does not say where the stem ends: they are the same name only if one stem is the other one
followed by a number (`extends_of_eq`), and in this case they can be the same (`numbered_one`). Numbers are counted
by `World.uniqueName` alone: everything else leaves the number of the next name as it is.
-/

namespace SmallLisp

variable {p q : String} {k m n : Nat}

/-- One stem is the other one followed by a number other than zero. -/
def Extends (p q : String) : Prop := ∃ k : Nat, 0 < k ∧ q = p ++ toString k

theorem not_extends_self (p : String) : ¬ Extends p p := by
  rintro ⟨k, -, heq⟩
  have hlength := congrArg String.length heq
  have hpos : 0 < (toString k).length := by
    rw [← String.length_toList, Nat.toString_eq_ofList_toDigits, String.toList_ofList]
    exact Nat.length_toDigits_pos
  rw [String.length_append] at hlength
  omega

theorem toList_toString_nat (n : Nat) : (toString n).toList = Nat.toDigits 10 n := by
  rw [Nat.toString_eq_ofList_toDigits, String.toList_ofList]

theorem toDigits_injective (h : Nat.toDigits 10 n = Nat.toDigits 10 m) : n = m := by
  rw [← Nat.ofDigitChars_ten_toDigits (n := n), h, Nat.ofDigitChars_ten_toDigits]

/-- What a numeral begins with, but for its last digits, is the numeral of a number other than zero: by
induction on the digits that are left out. -/
theorem exists_toDigits_of_append {front back : List Char} (hfront : front ≠ []) (hback : back ≠ [])
    (h : front ++ back = Nat.toDigits 10 n) : ∃ k, 0 < k ∧ front = Nat.toDigits 10 k := by
  induction back using List.reverseRecOn generalizing n with
  | nil => exact absurd rfl hback
  | append_singleton back d ih =>
    obtain hlt | hle := Nat.lt_or_ge n 10
    · -- A numeral of one digit cannot be cut.
      have hlength := congrArg List.length h
      rw [Nat.toDigits_of_lt_base hlt] at hlength
      have hpos := List.length_pos_iff.mpr hfront
      simp only [List.length_append, List.length_cons, List.length_nil] at hlength
      omega
    · rw [Nat.toDigits_of_base_le (by decide) hle, ← List.append_assoc] at h
      obtain ⟨hrest, -⟩ := List.append_inj' h rfl
      by_cases hnil : back = []
      · subst hnil
        rw [List.append_nil] at hrest
        exact ⟨n / 10, Nat.div_pos hle (by decide), hrest⟩
      · exact ih hnil hrest

/-- Names with different numbers differ, unless one stem extends the other one. -/
theorem extends_of_eq (h : p ++ toString n = q ++ toString m) (hne : n ≠ m) : Extends p q ∨ Extends q p := by
  have hchars := congrArg String.toList h
  rw [String.toList_append, String.toList_append, toList_toString_nat, toList_toString_nat] at hchars
  -- A stem that is longer by some digits is the shorter one followed by the beginning of its numeral.
  have hlonger : ∀ {a b : String} {i j : Nat} {front : List Char}, i ≠ j → b.toList = a.toList ++ front →
      Nat.toDigits 10 i = front ++ Nat.toDigits 10 j → Extends a b := by
    intro a b i j front hij hstem hdigits
    have hfront : front ≠ [] := by
      rintro rfl
      exact hij (toDigits_injective hdigits)
    obtain ⟨k, hk, rfl⟩ := exists_toDigits_of_append hfront Nat.toDigits_ne_nil hdigits.symm
    refine ⟨k, hk, String.toList_injective ?_⟩
    rw [hstem, String.toList_append, toList_toString_nat]
  obtain ⟨front, hstem, hdigits⟩ | ⟨front, hstem, hdigits⟩ := List.append_eq_append_iff.mp hchars
  · exact .inl (hlonger hne hstem hdigits)
  · exact .inr (hlonger hne.symm hstem hdigits)

/-- A stem that another one extends takes the name with the number one, when its own number is great enough. -/
theorem numbered_one (p : String) (hk : 0 < k) : p ++ toString k ++ toString 1 = p ++ toString (10 * k + 1) := by
  have hdigits := Nat.toDigits_append_toDigits (b := 10) (n := k) (d := 1) (by decide) hk (by decide)
  refine String.toList_injective ?_
  simp only [String.toList_append, toList_toString_nat, List.append_assoc]
  rw [hdigits]

/-! ## The number of the next name -/

namespace World

variable (w : World) (r : RegistryId)

@[simp] theorem nextName_modifyRegistry (f : Registry → Registry) :
    (w.modifyRegistry r f).nextName = w.nextName := rfl

@[simp] theorem nextName_print (text : String) : (w.print text).nextName = w.nextName := rfl

@[simp] theorem nextName_setRoot (v : Var) (x : Value) : (w.setRoot v x).nextName = w.nextName := rfl

@[simp] theorem nextName_newPrivateVar (owner : Namespace) (name : Symbol) (root : Option Value) :
    (w.newPrivateVar owner name root).2.nextName = w.nextName := rfl

@[simp] theorem nextName_internNamespace (name : String) :
    (w.internNamespace r name).2.nextName = w.nextName := by
  unfold internNamespace
  split <;> rfl

@[simp] theorem nextName_internCore : (w.internCore r).2.nextName = w.nextName :=
  w.nextName_internNamespace r coreName

@[simp] theorem nextName_internVarIn (n : Namespace) (s : Symbol) :
    (w.internVarIn n s).2.nextName = w.nextName := by
  unfold internVarIn
  split <;> rfl

@[simp] theorem nextName_internVar (s : Symbol) : (w.internVar r s).2.nextName = w.nextName := by
  unfold internVar
  split
  · split
    · exact w.nextName_internVarIn _ _
    · rfl
  · rfl

@[simp] theorem nextName_internKeyword (s : Symbol) :
    (w.internKeyword r s).2.nextName = w.nextName := by
  unfold internKeyword
  split <;> rfl

@[simp] theorem nextName_threadStateFrom (here : Site) (first : ThreadState) :
    (w.threadStateFrom here first).2.nextName = w.nextName := by
  unfold threadStateFrom
  split <;> rfl

@[simp] theorem nextName_defaultThreadState : (w.defaultThreadState r).2.nextName = w.nextName := by
  simp [defaultThreadState]

@[simp] theorem nextName_threadState (here : Site) : (w.threadState here).2.nextName = w.nextName := by
  unfold threadState
  split <;> simp

@[simp] theorem nextName_currentNamespace (here : Site) :
    (w.currentNamespace here).2.nextName = w.nextName := w.nextName_threadState here

@[simp] theorem nextName_switchNamespace (here : Site) (name : String) :
    (w.switchNamespace here name).2.nextName = w.nextName := by
  simp [switchNamespace]

@[simp] theorem nextName_readKeyword (here : Site) (s : Symbol) (auto : Bool) :
    (w.readKeyword here s auto).2.nextName = w.nextName := by
  have hcurrent := w.nextName_currentNamespace here
  unfold readKeyword
  split
  · exact w.nextName_internKeyword _ _
  · split
    · rfl
    · split
      · rename_i h
        rw [h] at hcurrent
        exact (nextName_internKeyword ..).trans hcurrent
      · rename_i h
        rw [h] at hcurrent
        exact hcurrent

@[simp] theorem nextName_defineNative (f : Native) : (w.defineNative r f).nextName = w.nextName := by
  simp [defineNative]

theorem nextName_defineNatives (fs : List Native) :
    (fs.foldl (·.defineNative r ·) w).nextName = w.nextName := by
  induction fs generalizing w with
  | nil => rfl
  | cons f fs ih => rw [List.foldl_cons, ih, nextName_defineNative]

@[simp] theorem nextName_addStandardLibrary : (w.addStandardLibrary r).nextName = w.nextName :=
  w.nextName_defineNatives r _

@[simp] theorem nextName_newRegistry (thread : ThreadId) (limit : Nat) :
    (w.newRegistry thread limit).2.nextName = w.nextName := by
  simp only [newRegistry, nextName_defineNatives, nextName_threadStateFrom, nextName_internVarIn,
    nextName_setRoot, nextName_internCore]

@[simp] theorem nextName_copyNamespace (n : Namespace) :
    (w.copyNamespace n).2.nextName = w.nextName := rfl

@[simp] theorem nextName_copyNamespaces (namespaces : List (String × Namespace)) :
    (w.copyNamespaces namespaces).2.nextName = w.nextName := by
  induction namespaces generalizing w with
  | nil => rfl
  | cons n rest ih => simp [copyNamespaces, ih]

@[simp] theorem nextName_copyThreadState (copies : List (String × Namespace)) (state : ThreadState) :
    (w.copyThreadState copies state).2.nextName = w.nextName := by
  unfold copyThreadState
  dsimp only
  split <;> split <;> simp

@[simp] theorem nextName_copyThreads (copies : List (String × Namespace))
    (threads : List (ThreadId × ThreadState)) :
    (w.copyThreads copies threads).2.nextName = w.nextName := by
  induction threads generalizing w with
  | nil => rfl
  | cons t rest ih => simp [copyThreads, ih]

@[simp] theorem nextName_copyRegistry : (w.copyRegistry r).2.nextName = w.nextName := by
  have h : (w.copyRegistry r).2.nextName = ((w.copyNamespaces (w.registry r).namespaces).2.copyThreads
      (w.copyNamespaces (w.registry r).namespaces).1 (w.registry r).threads).2.nextName := rfl
  rw [h, nextName_copyThreads, nextName_copyNamespaces]

end World

end SmallLisp
