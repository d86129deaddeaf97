import SmallLisp.Proofs.Session.Threads
import SmallLisp.Proofs.World.Names

/-!
# The names that threads generate

The names that any threads generate, in any registries and their copies, are numbered through
(`Crew.numbered_generated`): every name takes the number of the world, and nothing else changes it
(`Crew.nextName_after`). So they are all different if no stem that is used extends another one, and only then
(`generated_nodup_iff`).
-/

namespace SmallLisp

variable {m : Crew} {stem : String} {n : Nat}

/-! ## Numbers -/

/-- The stem and the name that a deed generates in a world. -/
def Deed.generates (w : World) : Deed → Option (String × String)
  | uniqueName stem => some (stem, (w.uniqueName stem).1)
  | _ => none

/-- A deed counts one name if it generates one. -/
theorem Deed.nextName_effect (here : Site) (w : World) (d : Deed) :
    (d.effect here w).nextName = w.nextName + (d.generates w).toList.length := by
  cases d with
  | look => rfl
  | newObject => rfl
  | uniqueName stem => rfl
  | print text => exact (w.nextName_print text)
  | internKeyword s => exact (w.nextName_internKeyword _ s)
  | readKeyword s auto => exact (w.nextName_readKeyword here s auto)
  | internNamespace name => exact (w.nextName_internNamespace _ name)
  | internVar s => exact (w.nextName_internVar _ s)
  | threadState => exact (w.nextName_threadState here)
  | switchNamespace name => exact (w.nextName_switchNamespace here name)
  | newFunction c => rfl
  | setRoot v x => rfl
  | setMetadata v x => rfl

namespace Crew

/-- The stem and the name that are generated at a turn. -/
def generates (m : Crew) : Turn → Option (String × String)
  | .go t =>
    match m.doing t with
    | some (_, .step d _) => d.generates m.world
    | _ => none
  | _ => none

/-- The stems and the names that are generated at turns, one after the other. -/
def generated (m : Crew) : List Turn → List (String × String)
  | [] => []
  | turn :: turns => (m.generates turn).toList ++ (m.after turn).generated turns

/-- The turns may come one after the other. -/
def AllowsAll (m : Crew) : List Turn → Prop
  | [] => True
  | turn :: turns => m.Allows turn ∧ (m.after turn).AllowsAll turns

/-- A name takes the number that is next. -/
theorem numbered_generates {turn : Turn} {g : String × String} (h : g ∈ (m.generates turn).toList) :
    g.2 = g.1 ++ toString m.world.nextName := by
  unfold generates at h
  split at h
  · split at h
    · rename_i r d next hdoing
      cases d with
      | uniqueName stem =>
        obtain rfl := List.mem_singleton.mp h
        rfl
      | _ => cases h
    · cases h
  · cases h

/-- A turn counts one name if one is generated. -/
theorem nextName_after (m : Crew) (turn : Turn) :
    (m.after turn).world.nextName = m.world.nextName + (m.generates turn).toList.length := by
  cases turn with
  | create t limit library =>
    show (m.after (.create t limit library)).world.nextName = m.world.nextName
    unfold after join
    cases library with
    | true => simp only [if_true, World.nextName_addStandardLibrary, World.nextName_newRegistry]
    | false => simp only [Bool.false_eq_true, if_false, World.nextName_newRegistry]
  | copy t r =>
    show (m.after (.copy t r)).world.nextName = m.world.nextName
    unfold after join
    dsimp only
    split
    · exact World.nextName_copyRegistry ..
    · rfl
  | begin t r job course =>
    unfold after
    dsimp only
    split
    · split <;> rfl
    · rfl
  | go t =>
    unfold after generates
    dsimp only
    cases m.doing t with
    | none => rfl
    | some task =>
      obtain ⟨r, c⟩ := task
      cases c with
      | step d next => exact d.nextName_effect ⟨r, t⟩ m.world
      | done x => rfl
      | halt x => rfl

/-- The numbers of the names that are still to come. -/
theorem numbered_of_mem_generated {turns : List Turn} {g : String × String} (h : g ∈ m.generated turns) :
    ∃ n : Nat, m.world.nextName ≤ n ∧ g.2 = g.1 ++ toString n := by
  induction turns generalizing m with
  | nil => cases h
  | cons turn turns ih =>
    obtain hmem | hmem := List.mem_append.mp h
    · exact ⟨m.world.nextName, Nat.le_refl _, numbered_generates hmem⟩
    · obtain ⟨n, hn, hg⟩ := ih hmem
      rw [nextName_after] at hn
      exact ⟨n, Nat.le_trans (Nat.le_add_right ..) hn, hg⟩

/-- The names are numbered through, in the order in which they are generated. -/
theorem numbered_generated (m : Crew) (turns : List Turn) : (m.generated turns).Pairwise fun g g' =>
    ∃ n n' : Nat, n < n' ∧ g.2 = g.1 ++ toString n ∧ g'.2 = g'.1 ++ toString n' := by
  induction turns generalizing m with
  | nil => exact .nil
  | cons turn turns ih =>
    refine List.pairwise_append.mpr ⟨?_, ih _, fun g hg g' hg' => ?_⟩
    · cases m.generates turn with
      | none => exact .nil
      | some g => exact List.pairwise_singleton ..
    · obtain ⟨n', hn', hg''⟩ := numbered_of_mem_generated hg'
      rw [nextName_after] at hn'
      have hpos : 0 < (m.generates turn).toList.length := List.length_pos_of_mem hg
      exact ⟨m.world.nextName, n', by omega, numbered_generates hg, hg''⟩

/-- Names with stems none of which extends another one are all different. -/
theorem nodup_generated {turns : List Turn}
    (h : ∀ g ∈ m.generated turns, ∀ g' ∈ m.generated turns, ¬ Extends g.1 g'.1) :
    ((m.generated turns).map Prod.snd).Nodup := by
  refine List.pairwise_map.mpr ((numbered_generated m turns).imp_of_mem ?_)
  rintro g g' hg hg' ⟨n, n', hlt, hname, hname'⟩ heq
  rw [hname, hname'] at heq
  obtain hextends | hextends := extends_of_eq heq (Nat.ne_of_lt hlt)
  · exact h g hg g' hg' hextends
  · exact h g' hg' g hg hextends

/-- Names with one stem are all different. -/
theorem nodup_generated_of_stem {turns : List Turn} (h : ∀ g ∈ m.generated turns, g.1 = stem) :
    ((m.generated turns).map Prod.snd).Nodup := by
  refine nodup_generated fun g hg g' hg' => ?_
  rw [h g hg, h g' hg']
  exact not_extends_self stem

/-! ## Stems that extend each other -/

/-- The turns in which a thread generates a name in the first registry. -/
def generating (stem : String) : List Turn :=
  [.begin 0 0 (.uniqueName stem) (.step (.uniqueName stem) fun _ => .done ()), .go 0, .go 0]

/-- The thread can begin to generate a name, which will have this number. -/
structure Ready (m : Crew) (n : Nat) : Prop where
  made : 0 < m.world.registries.size
  idle : m.doing 0 = none
  number : m.world.nextName = n

/-- The turns may come, generate these names, and leave the thread where it can go on with the next number. -/
structure Serves (m : Crew) (n : Nat) (turns : List Turn) (names : List (String × String)) : Prop where
  allowed : m.AllowsAll turns
  names_eq : m.generated turns = names
  ready : (turns.foldl after m).Ready (n + names.length)

theorem Ready.generating (h : m.Ready n) (stem : String) :
    m.Serves n (generating stem) [(stem, stem ++ toString n)] := by
  obtain ⟨hmade, hidle, rfl⟩ := h
  -- The thread has begun, then it has taken the name, and then it has ended.
  let begun := m.assign 0 (some (0, .step (.uniqueName stem) fun _ => .done ()))
  let named := (begun.deed ⟨0, 0⟩ (.uniqueName stem)).assign 0 (some (0, .done ()))
  have hbegin : m.after (.begin 0 0 (.uniqueName stem) (.step (.uniqueName stem) fun _ => .done ())) = begun :=
    after_begin hmade hidle
  have hdoing : begun.doing 0 = some (0, .step (.uniqueName stem) fun _ => .done ()) := rfl
  have hgo : begun.after (.go 0) = named := after_go hdoing
  have hend : named.after (.go 0) = named.assign 0 none := rfl
  refine ⟨⟨fun w _ => rfl, ?_, ?_, trivial⟩, ?_, ?_⟩
  · rw [hbegin]
    exact allows_go rfl
  · rw [hbegin, hgo]
    exact allows_go rfl
  · simp only [Crew.generating, generated, hbegin, hgo]
    rfl
  · simp only [Crew.generating, List.foldl_cons, List.foldl_nil, hbegin, hgo, hend]
    exact ⟨hmade, rfl, rfl⟩

/-- The names of further turns come behind those of the first ones. -/
theorem generated_append (m : Crew) (turns more : List Turn) :
    m.generated (turns ++ more) = m.generated turns ++ (turns.foldl after m).generated more := by
  induction turns generalizing m with
  | nil => rfl
  | cons turn turns ih => simp [generated, ih]

theorem allowsAll_append {turns more : List Turn} (h : m.AllowsAll turns)
    (hmore : (turns.foldl after m).AllowsAll more) : m.AllowsAll (turns ++ more) := by
  induction turns generalizing m with
  | nil => exact hmore
  | cons turn turns ih => exact ⟨h.1, ih h.2 hmore⟩

theorem Serves.append {turns more : List Turn} {names names' : List (String × String)}
    (h : m.Serves n turns names) (hmore : (turns.foldl after m).Serves (n + names.length) more names') :
    m.Serves n (turns ++ more) (names ++ names') where
  allowed := allowsAll_append h.allowed hmore.allowed
  names_eq := by rw [generated_append, h.names_eq, hmore.names_eq]
  ready := by
    rw [List.foldl_append, List.length_append, ← Nat.add_assoc]
    exact hmore.ready

/-- Any number of names with one stem. -/
theorem Ready.repeated (h : m.Ready n) (stem : String) (k : Nat) :
    ∃ turns names, m.Serves n turns names ∧ names.length = k ∧ ∀ g ∈ names, g.1 = stem := by
  induction k with
  | zero => exact ⟨[], [], ⟨trivial, rfl, h⟩, rfl, nofun⟩
  | succ k ih =>
    obtain ⟨turns, names, hserves, rfl, hstems⟩ := ih
    refine ⟨_, _, hserves.append (hserves.ready.generating stem), List.length_append, fun g hg => ?_⟩
    obtain hmem | hmem := List.mem_append.mp hg
    · exact hstems g hmem
    · rw [List.mem_singleton.mp hmem]

theorem ready_created : (start.after (.create 0 0 false)).Ready 1 where
  made := by
    show 0 < (World.empty.newRegistry 0 0).2.registries.size
    rw [World.size_registries_newRegistry]
    exact Nat.succ_pos _
  idle := rfl
  number := nextName_after start (.create 0 0 false)

/-- Where a stem extends another one, some turns generate the same name twice. -/
theorem exists_repeated {p q : String} (h : Extends p q) : ∃ turns, start.AllowsAll turns ∧
    (∀ g ∈ start.generated turns, g.1 = p ∨ g.1 = q) ∧ ¬ ((start.generated turns).map Prod.snd).Nodup := by
  obtain ⟨k, hk, rfl⟩ := h
  have hfirst := ready_created.generating (p ++ toString k)
  obtain ⟨turns, names, hserves, hlength, hstems⟩ := hfirst.ready.repeated p (10 * k - 1)
  have hall := hfirst.append (hserves.append (hserves.ready.generating p))
  refine ⟨.create 0 0 false :: _, ⟨trivial, hall.allowed⟩, ?_, ?_⟩
  · intro g hg
    replace hg : g ∈ (start.after (.create 0 0 false)).generated _ := hg
    rw [hall.names_eq] at hg
    simp only [List.mem_append, List.mem_singleton] at hg
    obtain rfl | hmem | rfl := hg
    · exact .inr rfl
    · exact .inl (hstems g hmem)
    · exact .inl rfl
  · intro hnodup
    replace hnodup : (((start.after (.create 0 0 false)).generated _).map Prod.snd).Nodup := hnodup
    rw [hall.names_eq] at hnodup
    have hnumber : 1 + 1 + names.length = 10 * k + 1 := by omega
    have hlast : p ++ toString k ++ toString 1 ∈
        (names ++ [(p, p ++ toString (1 + 1 + names.length))]).map Prod.snd := by
      rw [numbered_one p hk, ← hnumber]
      simp
    exact (List.nodup_cons.mp hnodup).1 hlast

end Crew

/-! ## Distinct names -/

/-- A call of `gensym` is one deed, which generates the name of the symbol that it gives. -/
theorem apply_gensym (here : Site) (depth : Nat) {v : Value} (h : Native.nameText .gensym v = .ok stem) :
    apply here (depth + 1) (.native .gensym) [v] =
      (Course.step (.uniqueName stem) fun w => .done (.symbol (.bare (w.uniqueName stem).1))).run here := by
  simp only [SmallLisp.apply, Native.call, h]
  rfl

/-- Whatever threads do in a process, in any registries and copies of them, the names that they generate with
certain stems are pairwise distinct, if none of the stems is another one followed by a number other than zero. If
one is, then there are threads that generate a name twice. Calls of `gensym` count as well: each of them is one
deed that generates a name. -/
theorem generated_nodup_iff (stems : Set String) :
    ((∀ turns, Crew.start.AllowsAll turns → (∀ g ∈ Crew.start.generated turns, g.1 ∈ stems) →
        ((Crew.start.generated turns).map Prod.snd).Nodup) ↔
      ∀ p ∈ stems, ∀ q ∈ stems, ¬ Extends p q) ∧
    ∀ here depth v stem, Native.nameText .gensym v = .ok stem →
      apply here (depth + 1) (.native .gensym) [v] =
        (Course.step (.uniqueName stem) fun w => .done (.symbol (.bare (w.uniqueName stem).1))).run here := by
  refine ⟨⟨fun h p hp q hq hextends => ?_, fun h turns _ hstems => ?_⟩, fun here depth v stem hname =>
    apply_gensym here depth hname⟩
  · obtain ⟨turns, hallowed, hstems, hrepeated⟩ := Crew.exists_repeated hextends
    refine hrepeated (h turns hallowed fun g hg => ?_)
    obtain heq | heq := hstems g hg
    · exact heq ▸ hp
    · exact heq ▸ hq
  · exact Crew.nodup_generated fun g hg g' hg' => h g.1 (hstems g hg) g'.1 (hstems g' hg')

/-- What is said of generated names without regard to their stems: whatever threads do, they are pairwise
distinct. -/
def NamesNeverRepeat : Prop :=
  ∀ turns, Crew.start.AllowsAll turns → ((Crew.start.generated turns).map Prod.snd).Nodup

/-- The first name with the stem `x1` is the eleventh one with the stem `x`. -/
theorem not_namesNeverRepeat : ¬ NamesNeverRepeat := by
  intro h
  obtain ⟨turns, hallowed, -, hrepeated⟩ :=
    Crew.exists_repeated (p := "x") (q := "x1") ⟨1, Nat.one_pos, by decide⟩
  exact hrepeated (h turns hallowed)

end SmallLisp
