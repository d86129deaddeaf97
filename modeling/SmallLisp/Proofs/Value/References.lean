import SmallLisp.Value.Equality

/-!
# What values refer to

Code gets hold of functions, vars and namespaces through the values it has (`Value.refs`). A value is
`Within` a set when it refers to nothing outside it; what is taken out of such values, or made of them, is
within the set again.
-/

namespace SmallLisp

/-- Something that code has got hold of, and what it can do with it. -/
inductive Ref where
  /-- A function, which can be called. -/
  | function (f : Function)
  /-- A var, whose root can be read. -/
  | var (v : Var)
  /-- A namespace, in which vars can be found. -/
  | ns (n : Namespace)
  /-- A var, which can be defined. -/
  | target (v : Var)

namespace Value

mutual

/-- What a value refers to, the elements of collections included. -/
def refs : Value → List Ref
  | nil | bool _ | int _ | float _ | str _ _ | symbol _ | keyword _ | native _ => []
  | list _ items => refsAll items
  | vector _ items => refsAll items
  | map _ entries => refsEntries entries
  | function f => [.function f]
  | ns n => [.ns n]
  | var v => [.var v]

/-- What some of the values refer to. -/
def refsAll : List Value → List Ref
  | [] => []
  | v :: vs => v.refs ++ refsAll vs

/-- What some of the entries refer to. -/
def refsEntries : List (Value × Value) → List Ref
  | [] => []
  | (k, v) :: rest => k.refs ++ v.refs ++ refsEntries rest

end

attribute [grind =] refs refsAll refsEntries

/-- The value refers to things of `R` alone. -/
def Within (R : Ref → Prop) (v : Value) : Prop := ∀ r ∈ v.refs, R r

/-- The keys and values of the entries refer to things of `R` alone. -/
def EntriesWithin (R : Ref → Prop) (entries : List (Value × Value)) : Prop :=
  ∀ e ∈ entries, e.1.Within R ∧ e.2.Within R

variable {R : Ref → Prop} {id : ObjectId} {v : Value} {items : List Value}
  {entries : List (Value × Value)}

theorem mem_refsAll {r : Ref} {vs : List Value} : r ∈ refsAll vs ↔ ∃ v ∈ vs, r ∈ v.refs := by
  induction vs with
  | nil => simp [refsAll]
  | cons v vs ih => simp [refsAll, ih]

theorem mem_refsEntries {r : Ref} {entries : List (Value × Value)} :
    r ∈ refsEntries entries ↔ ∃ e ∈ entries, r ∈ e.1.refs ∨ r ∈ e.2.refs := by
  induction entries with
  | nil => simp [refsEntries]
  | cons e rest ih => simp [refsEntries, ih, or_assoc]

/-- A value without references is within every set. -/
theorem Within.of_plain (h : v.refs = []) : v.Within R := by
  unfold Within
  simp [h]

theorem within_list : (list id items).Within R ↔ ∀ v ∈ items, v.Within R := by
  unfold Within
  simp only [refs, mem_refsAll]
  exact ⟨fun h v hv r hr => h r ⟨v, hv, hr⟩, fun h r ⟨v, hv, hr⟩ => h v hv r hr⟩

theorem within_vector : (vector id items).Within R ↔ ∀ v ∈ items, v.Within R := by
  unfold Within
  simp only [refs, mem_refsAll]
  exact ⟨fun h v hv r hr => h r ⟨v, hv, hr⟩, fun h r ⟨v, hv, hr⟩ => h v hv r hr⟩

theorem within_map : (map id entries).Within R ↔ EntriesWithin R entries := by
  unfold EntriesWithin Within
  simp only [refs, mem_refsEntries]
  exact ⟨fun h e he => ⟨fun r hr => h r ⟨e, he, .inl hr⟩, fun r hr => h r ⟨e, he, .inr hr⟩⟩,
    fun h r ⟨e, he, hr⟩ => hr.elim ((h e he).1 r) ((h e he).2 r)⟩

theorem within_function {f : Function} : (function f).Within R ↔ R (.function f) := by
  simp [Within, refs]

theorem within_ns {n : Namespace} : (ns n).Within R ↔ R (.ns n) := by
  simp [Within, refs]

theorem within_var {u : Var} : (var u).Within R ↔ R (.var u) := by
  simp [Within, refs]

mutual

/-- No value refers to a var to define it. -/
theorem target_notMem_refs (t : Var) : (v : Value) → Ref.target t ∉ v.refs
  | nil | bool _ | int _ | float _ | str _ _ | symbol _ | keyword _ | native _ => by simp [refs]
  | list _ items => by simpa [refs] using target_notMem_refsAll t items
  | vector _ items => by simpa [refs] using target_notMem_refsAll t items
  | map _ entries => by simpa [refs] using target_notMem_refsEntries t entries
  | function _ => by simp [refs]
  | ns _ => by simp [refs]
  | var _ => by simp [refs]

/-- No values refer to a var to define it. -/
theorem target_notMem_refsAll (t : Var) : (vs : List Value) → Ref.target t ∉ refsAll vs
  | [] => by simp [refsAll]
  | v :: vs => by simp [refsAll, target_notMem_refs t v, target_notMem_refsAll t vs]

/-- No entries refer to a var to define it. -/
theorem target_notMem_refsEntries (t : Var) :
    (entries : List (Value × Value)) → Ref.target t ∉ refsEntries entries
  | [] => by simp [refsEntries]
  | (k, v) :: rest => by
    simp [refsEntries, target_notMem_refs t k, target_notMem_refs t v,
      target_notMem_refsEntries t rest]

end

/-! ## Entries and elements -/

/-- A value that is found under a key is one of the entries. -/
theorem mem_of_lookup_key {key : Value} (h : lookup key entries = some v) :
    ∃ k, (k, v) ∈ entries := by
  induction entries with
  | nil => cases h
  | cons e rest ih =>
    obtain ⟨k, x⟩ := e
    unfold lookup at h
    split at h
    · cases h
      exact ⟨k, by simp⟩
    · obtain ⟨k', hmem⟩ := ih h
      exact ⟨k', by simp [hmem]⟩

theorem EntriesWithin.lookup {key : Value} (h : EntriesWithin R entries)
    (hv : lookup key entries = some v) : v.Within R := by
  obtain ⟨k, hmem⟩ := mem_of_lookup_key hv
  exact (h _ hmem).2

theorem EntriesWithin.insert {k : Value} (h : EntriesWithin R entries) (hk : k.Within R)
    (hv : v.Within R) : EntriesWithin R (insert k v entries) := by
  induction entries with
  | nil => exact List.forall_mem_singleton.mpr ⟨hk, hv⟩
  | cons e rest ih =>
    obtain ⟨he, hrest⟩ := List.forall_mem_cons.mp h
    unfold Value.insert
    split
    · exact List.forall_mem_cons.mpr ⟨⟨hk, hv⟩, hrest⟩
    · exact List.forall_mem_cons.mpr ⟨he, ih hrest⟩

theorem EntriesWithin.entriesOf {pairs : List (Value × Value)} (h : EntriesWithin R pairs) :
    EntriesWithin R (entriesOf pairs) :=
  List.foldlRecOn pairs _ (motive := EntriesWithin R) nofun fun _ he p hp =>
    he.insert (h p hp).1 (h p hp).2

theorem entriesWithin_pairUp {items : List Value} (h : ∀ v ∈ items, v.Within R) :
    EntriesWithin R (pairUp items) := by
  fun_induction pairUp items with
  | case1 k v rest ih =>
    obtain ⟨hk, hrest⟩ := List.forall_mem_cons.mp h
    obtain ⟨hv, hrest⟩ := List.forall_mem_cons.mp hrest
    exact List.forall_mem_cons.mpr ⟨⟨hk, hv⟩, ih hrest⟩
  | case2 => nofun

theorem Within.lookupIn {collection key : Value} (h : collection.Within R)
    (hv : lookupIn collection key = some v) : v.Within R := by
  unfold Value.lookupIn at hv
  split at hv
  · exact (within_map.mp h).lookup hv
  · split at hv
    · exact within_vector.mp h v (List.mem_of_getElem? hv)
    · cases hv
  · cases hv

/-- A value that may be missing. -/
theorem Within.getD {found : Option Value} {default : Value}
    (h : ∀ v, found = some v → v.Within R) (hd : default.Within R) :
    (found.getD default).Within R := by
  cases found with
  | none => exact hd
  | some v => exact h v rfl

end Value

end SmallLisp
