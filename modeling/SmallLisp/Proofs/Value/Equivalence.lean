import Mathlib.Data.List.Perm.Basic
import SmallLisp.Value.Sharing

/-!
# Equality is an equivalence

Two values are equal when they look the same: as things without parts, as sequences, or as entries
(`Value.equal_iff_view`). Entries are compared by pairing them off greedily, which finds a way to pair
them off if there is one, as long as equality of the entries themselves is an equivalence
(`Value.equalEntries_of_paired`). So equality is symmetric and transitive, by induction on the size of
one of the values (`Value.equal_comm`, `Value.equal_trans`).
-/

namespace SmallLisp.Value

/-! ## Pairing off -/

/-- Whether two entries are equal. -/
def EntryEqual (a b : Value × Value) : Prop := equal a.1 b.1 = true ∧ equal a.2 b.2 = true

/-- The entries can be put in such an order that each one is equal to the one in its place. -/
def Paired (as bs : List (Value × Value)) : Prop := ∃ cs, bs.Perm cs ∧ List.Forall₂ EntryEqual as cs

variable {as bs cs : List (Value × Value)} {a b c : Value × Value}

/-- The first entry takes the first one that is equal to it. -/
theorem equalEntries_cons_iff : equalEntries (a :: as) bs = true ↔
    ∃ i, ∃ h : i < bs.length, EntryEqual a bs[i] ∧
      (bs.findIdx? fun b => equal a.1 b.1 && equal a.2 b.2) = some i ∧
        equalEntries as (bs.eraseIdx i) = true := by
  obtain ⟨k, v⟩ := a
  rw [equalEntries]
  cases hfind : bs.findIdx? fun b => equal k b.1 && equal v b.2 with
  | none => simp
  | some i =>
    obtain ⟨hlt, hequal, -⟩ := List.findIdx?_eq_some_iff_getElem.mp hfind
    rw [Bool.and_eq_true] at hequal
    constructor
    · intro h
      exact ⟨i, hlt, hequal, rfl, h⟩
    · rintro ⟨j, -, -, hj, h⟩
      cases hj
      exact h

theorem paired_of_equalEntries (h : equalEntries as bs = true) : Paired as bs := by
  induction as generalizing bs with
  | nil =>
    rw [equalEntries, List.isEmpty_iff] at h
    exact ⟨[], h ▸ .refl _, .nil⟩
  | cons a as ih =>
    obtain ⟨i, hlt, hequal, -, hrest⟩ := equalEntries_cons_iff.mp h
    obtain ⟨cs, hperm, hcs⟩ := ih hrest
    refine ⟨bs[i] :: cs, ?_, .cons hequal hcs⟩
    exact (List.getElem_cons_eraseIdx_perm hlt).symm.trans (hperm.cons _)

/-- Where one entry is given up for another one, the partner of that one takes it instead. -/
theorem exists_replaced (h : List.Forall₂ EntryEqual as cs) (hb : b ∈ cs)
    (hpartner : ∀ a ∈ as, EntryEqual a b → EntryEqual a c) :
    ∃ ds, List.Forall₂ EntryEqual as ds ∧ (c :: cs).Perm (b :: ds) := by
  induction h with
  | nil => cases hb
  | @cons a d as cs had hrest ih =>
    obtain rfl | hb := List.mem_cons.mp hb
    · exact ⟨c :: cs, .cons (hpartner a (List.mem_cons_self ..) had) hrest, .swap ..⟩
    · obtain ⟨ds, hds, hperm⟩ := ih hb fun a ha => hpartner a (List.mem_cons_of_mem _ ha)
      refine ⟨d :: ds, .cons had hds, ?_⟩
      calc (c :: d :: cs).Perm (d :: c :: cs) := .swap ..
        _ |>.Perm (d :: b :: ds) := hperm.cons d
        _ |>.Perm (b :: d :: ds) := .swap ..

/-- Taking the first entry that is equal does no harm, where entries equal to one are equal to what that
one is equal to. -/
theorem equalEntries_of_paired
    (hr : ∀ a ∈ as, ∀ a' ∈ as, ∀ b ∈ bs, ∀ c ∈ bs,
      EntryEqual a b → EntryEqual a c → EntryEqual a' b → EntryEqual a' c)
    (h : Paired as bs) : equalEntries as bs = true := by
  induction as generalizing bs with
  | nil =>
    obtain ⟨cs, hperm, ⟨⟩⟩ := h
    rw [hperm.eq_nil]
    rfl
  | cons a as ih =>
    obtain ⟨_, hperm, hall⟩ := h
    obtain _ | @⟨_, c, _, cs, hac, hcs⟩ := hall
    have hc : c ∈ bs := hperm.mem_iff.mpr (List.mem_cons_self ..)
    cases hfind : bs.findIdx? fun b => equal a.1 b.1 && equal a.2 b.2 with
    | none =>
      have hne := List.findIdx?_eq_none_iff.mp hfind c hc
      rw [hac.1, hac.2] at hne
      cases hne
    | some i =>
      obtain ⟨hlt, hequal, -⟩ := List.findIdx?_eq_some_iff_getElem.mp hfind
      rw [Bool.and_eq_true] at hequal
      have hb : bs[i] ∈ bs := List.getElem_mem hlt
      have herase := List.getElem_cons_eraseIdx_perm hlt
      -- The entry takes `bs[i]`, which is perhaps not its partner `c`.
      refine equalEntries_cons_iff.mpr ⟨i, hlt, hequal, hfind, ih ?_ ?_⟩
      · intro a₁ h₁ a₂ h₂ b hb c hc
        exact hr a₁ (List.mem_cons_of_mem _ h₁) a₂ (List.mem_cons_of_mem _ h₂) b
          (List.mem_of_mem_eraseIdx hb) c (List.mem_of_mem_eraseIdx hc)
      · obtain heq | hmem := List.mem_cons.mp (hperm.mem_iff.mp hb)
        · rw [heq] at herase
          exact ⟨cs, (herase.trans hperm).cons_inv, hcs⟩
        · -- Then the one whose partner `bs[i]` is takes `c`.
          obtain ⟨ds, hds, hswap⟩ := exists_replaced hcs hmem fun a' ha' hb' =>
            hr a (List.mem_cons_self ..) a' (List.mem_cons_of_mem _ ha') _ hb c hc hequal hac hb'
          exact ⟨ds, ((herase.trans hperm).trans hswap).cons_inv, hds⟩

/-! ## What values look like -/

/-- A value without parts, as far as comparisons see it. -/
inductive Atom where
  | nil
  | bool (b : Bool)
  | int (n : Int64)
  | float (bits : UInt64)
  | str (text : String)
  | symbol (s : Symbol)
  | keyword (s : Symbol) (resolved : Bool)
  | native (f : Native)
  | function (id : Nat)
  | ns (id : Nat)
  | var (id : Nat)

/-- A value as comparisons see it. -/
inductive View where
  /-- It has no parts. -/
  | atom (a : Atom)
  /-- It is a list or a vector. -/
  | items (vs : List Value)
  /-- It is a map. -/
  | entries (es : List (Value × Value))

/-- What a comparison sees of a value. -/
def view : Value → View
  | nil => .atom .nil
  | bool b => .atom (.bool b)
  | int n => .atom (.int n)
  | float x => .atom (.float x.toBits)
  | str _ text => .atom (.str text)
  | symbol s => .atom (.symbol s)
  | keyword k => .atom (.keyword k.sym k.resolved)
  | list _ items => .items items
  | vector _ items => .items items
  | map _ entries => .entries entries
  | native f => .atom (.native f)
  | function f => .atom (.function f.id)
  | ns n => .atom (.ns n.id)
  | var v => .atom (.var v.id)

/-- Two values look the same, where their parts are equal. -/
inductive View.Alike : View → View → Prop
  /-- They have no parts. -/
  | atom (a : Atom) : Alike (.atom a) (.atom a)
  /-- They are sequences. -/
  | items {as bs : List Value} (h : List.Forall₂ (equal · · = true) as bs) :
    Alike (.items as) (.items bs)
  /-- They are maps. -/
  | entries {as bs : List (Value × Value)} (h : equalEntries as bs = true) :
    Alike (.entries as) (.entries bs)

theorem equalItems_iff_forall₂ {as bs : List Value} :
    equalItems as bs = true ↔ List.Forall₂ (equal · · = true) as bs := by
  induction as generalizing bs with
  | nil => cases bs <;> simp [equalItems]
  | cons a as ih => cases bs <;> simp [equalItems, ih]

theorem View.alike_atom_iff {a b : Atom} : Alike (.atom a) (.atom b) ↔ a = b :=
  ⟨fun h => by cases h; rfl, fun h => h ▸ .atom a⟩

theorem View.alike_items_iff {as bs : List Value} :
    Alike (.items as) (.items bs) ↔ equalItems as bs = true :=
  ⟨fun h => by cases h with | items h => exact equalItems_iff_forall₂.mpr h,
    fun h => .items (equalItems_iff_forall₂.mp h)⟩

theorem View.alike_entries_iff {as bs : List (Value × Value)} :
    Alike (.entries as) (.entries bs) ↔ equalEntries as bs = true :=
  ⟨fun h => by cases h with | entries h => exact h, .entries⟩

/-- Values are equal when they look the same. -/
theorem equal_iff_view {a b : Value} : equal a b = true ↔ View.Alike a.view b.view := by
  cases a <;> cases b <;>
    simp [equal, view, View.alike_atom_iff, View.alike_items_iff, View.alike_entries_iff] <;>
    nofun

/-! ## Symmetry and transitivity -/

/-- What stands side by side is related the other way round, where relations can be turned. -/
theorem forall₂_turn {α β : Type} {R : α → β → Prop} {S : β → α → Prop} {as : List α} {bs : List β}
    (h : List.Forall₂ R as bs) (hturn : ∀ a ∈ as, ∀ b ∈ bs, R a b → S b a) : List.Forall₂ S bs as := by
  induction h with
  | nil => exact .nil
  | cons hab _ ih =>
    refine .cons (hturn _ (List.mem_cons_self ..) _ (List.mem_cons_self ..) hab) (ih ?_)
    intro a ha b hb
    exact hturn a (List.mem_cons_of_mem _ ha) b (List.mem_cons_of_mem _ hb)

/-- What stands side by side twice over is related, where relations can be joined. -/
theorem forall₂_join {α : Type} {R : α → α → Prop} {as bs cs : List α} (h : List.Forall₂ R as bs)
    (h' : List.Forall₂ R bs cs) (hjoin : ∀ a ∈ as, ∀ b c, R a b → R b c → R a c) :
    List.Forall₂ R as cs := by
  induction h generalizing cs with
  | nil =>
    cases h'
    exact .nil
  | cons hab _ ih =>
    obtain _ | ⟨hbc, hrest⟩ := h'
    refine .cons (hjoin _ (List.mem_cons_self ..) _ _ hab hbc) (ih hrest fun a ha => ?_)
    exact hjoin a (List.mem_cons_of_mem _ ha)

/-- Equality is symmetric and transitive where it begins with this value. -/
structure Tame (a : Value) : Prop where
  comm : ∀ b, equal a b = equal b a
  trans : ∀ b c, equal a b = true → equal b c = true → equal a c = true

/-- It is so for the key and for the value of an entry. -/
def TameEntry (e : Value × Value) : Prop := Tame e.1 ∧ Tame e.2

theorem TameEntry.comm (h : TameEntry a) : EntryEqual a b ↔ EntryEqual b a := by
  unfold EntryEqual
  rw [h.1.comm, h.2.comm]

theorem TameEntry.trans (h : TameEntry a) (hab : EntryEqual a b) (hbc : EntryEqual b c) :
    EntryEqual a c :=
  ⟨h.1.trans _ _ hab.1 hbc.1, h.2.trans _ _ hab.2 hbc.2⟩

theorem equalEntries_iff_paired (has : ∀ a ∈ as, TameEntry a) :
    equalEntries as bs = true ↔ Paired as bs := by
  refine ⟨paired_of_equalEntries, equalEntries_of_paired ?_⟩
  intro a ha a' ha' b _ c _ hab hac hab'
  have hba : EntryEqual b a := (has a ha).comm.mp hab
  have haa : EntryEqual a' a := (has a' ha').trans hab' hba
  exact (has a' ha').trans haa hac

theorem equalEntries_iff_paired_right (hbs : ∀ b ∈ bs, TameEntry b) :
    equalEntries as bs = true ↔ Paired as bs := by
  refine ⟨paired_of_equalEntries, equalEntries_of_paired ?_⟩
  intro a _ a' _ b hb c hc hab hac hab'
  have hca : EntryEqual c a := (hbs c hc).comm.mpr hac
  have hcb : EntryEqual c b := (hbs c hc).trans hca hab
  have hba : EntryEqual b a' := (hbs b hb).comm.mpr hab'
  exact (hbs c hc).comm.mp ((hbs c hc).trans hcb hba)

theorem Paired.comm (has : ∀ a ∈ as, TameEntry a) : Paired as bs ↔ Paired bs as := by
  constructor
  · rintro ⟨cs, hperm, hcs⟩
    have hturned : List.Forall₂ EntryEqual cs as :=
      forall₂_turn hcs fun a ha b _ hab => (has a ha).comm.mp hab
    obtain ⟨ds, hds, hdperm⟩ := List.perm_comp_forall₂ hperm hturned
    exact ⟨ds, hdperm.symm, hds⟩
  · rintro ⟨cs, hperm, hcs⟩
    have hturned : List.Forall₂ EntryEqual cs bs :=
      forall₂_turn hcs fun b _ c hc hbc => (has c (hperm.mem_iff.mpr hc)).comm.mpr hbc
    obtain ⟨ds, hds, hdperm⟩ := List.perm_comp_forall₂ hperm hturned
    exact ⟨ds, hdperm.symm, hds⟩

theorem Paired.trans (has : ∀ a ∈ as, TameEntry a) (h : Paired as bs) (h' : Paired bs cs) :
    Paired as cs := by
  obtain ⟨bs', hperm, hbs⟩ := h
  obtain ⟨cs', hperm', hcs⟩ := h'
  -- The partners in `cs` are put into the order that the entries of `bs` have as partners of `as`.
  obtain ⟨ds, hds, hdperm⟩ := List.perm_comp_forall₂ hperm.symm hcs
  exact ⟨ds, hperm'.trans hdperm.symm, forall₂_join hbs hds fun a ha b c => (has a ha).trans⟩

/-- Equality is symmetric and transitive where it begins with a part. -/
def View.TameParts : View → Prop
  | .atom _ => True
  | .items vs => ∀ v ∈ vs, Tame v
  | .entries es => ∀ e ∈ es, TameEntry e

namespace View

variable {va vb vc : View}

theorem Alike.comm (hva : va.TameParts) : Alike va vb ↔ Alike vb va := by
  constructor
  · rintro (x | hitems | hentries)
    · exact .atom x
    · exact .items (forall₂_turn hitems fun a ha b _ hab => (hva a ha).comm b ▸ hab)
    · refine .entries ((equalEntries_iff_paired_right hva).mpr ?_)
      exact (Paired.comm hva).mp (paired_of_equalEntries hentries)
  · rintro (x | hitems | hentries)
    · exact .atom x
    · exact .items (forall₂_turn hitems fun b _ a ha hba => (hva a ha).comm b ▸ hba)
    · refine .entries ((equalEntries_iff_paired hva).mpr ?_)
      exact (Paired.comm hva).mpr (paired_of_equalEntries hentries)

theorem Alike.trans (hva : va.TameParts) (h : Alike va vb) (h' : Alike vb vc) : Alike va vc := by
  obtain x | hitems | hentries := h
  · exact h'
  · obtain _ | hitems' | _ := h'
    exact .items (forall₂_join hitems hitems' fun a ha b c => (hva a ha).trans b c)
  · obtain _ | _ | hentries' := h'
    refine .entries ((equalEntries_iff_paired hva).mpr ?_)
    exact (paired_of_equalEntries hentries).trans hva (paired_of_equalEntries hentries')

end View

/-- The parts of a value are smaller than it. -/
theorem tameParts_view (a : Value) (h : ∀ b, sizeOf b < sizeOf a → Tame b) : a.view.TameParts := by
  have hitems : ∀ {vs : List Value}, sizeOf vs < sizeOf a → ∀ v ∈ vs, Tame v := by
    intro vs hvs v hv
    exact h v (Nat.lt_trans (List.sizeOf_lt_of_mem hv) hvs)
  have hentries : ∀ {es : List (Value × Value)}, sizeOf es < sizeOf a → ∀ e ∈ es, TameEntry e := by
    rintro es hes ⟨k, v⟩ he
    have hlt := Nat.lt_trans (List.sizeOf_lt_of_mem he) hes
    rw [Prod.mk.sizeOf_spec] at hlt
    exact ⟨h k (by omega), h v (by omega)⟩
  cases a with
  | list id items => exact hitems (by rw [list.sizeOf_spec]; omega)
  | vector id items => exact hitems (by rw [vector.sizeOf_spec]; omega)
  | map id entries => exact hentries (by rw [map.sizeOf_spec]; omega)
  | _ => trivial

/-- Equality is symmetric and transitive where it begins with any value: by induction on its size, as it is
so for the parts. -/
theorem tame (a : Value) : Tame a := by
  induction hn : sizeOf a using Nat.strongRecOn generalizing a with
  | ind n ih =>
    subst hn
    have hparts : a.view.TameParts := tameParts_view a fun b hlt => ih _ hlt b rfl
    refine ⟨fun b => Bool.eq_iff_iff.mpr ?_, fun b c hab hbc => ?_⟩
    · rw [equal_iff_view, equal_iff_view]
      exact View.Alike.comm hparts
    · rw [equal_iff_view] at hab hbc ⊢
      exact hab.trans hparts hbc

/-- Equality is symmetric. -/
theorem equal_comm (a b : Value) : equal a b = equal b a := (tame a).comm b

/-- Equality is transitive. -/
theorem equal_trans {a b c : Value} (hab : equal a b = true) (hbc : equal b c = true) :
    equal a c = true := (tame a).trans b c hab hbc

/-- Equal values are equal to the same values. -/
theorem equal_congr {a a' b b' : Value} (ha : equal a a' = true) (hb : equal b b' = true) :
    equal a b = equal a' b' := by
  have ha' : equal a' a = true := equal_comm a a' ▸ ha
  have hb' : equal b' b = true := equal_comm b b' ▸ hb
  refine Bool.eq_iff_iff.mpr ⟨fun h => ?_, fun h => ?_⟩
  · exact equal_trans (equal_trans ha' h) hb
  · exact equal_trans (equal_trans ha h) hb'

end SmallLisp.Value
