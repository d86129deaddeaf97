import SmallLisp.Proofs.World.Registered
import SmallLisp.Proofs.World.Sections

/-!
# Sections that other threads interrupt

What a thread relies on between two sections is that the others keep what stands in the tables, and that
nobody else gives a state to a thread while it keeps the lock of that table (`World.Evolves`); and so do
its own sections. From this follows what an operation results in, whatever comes in between
(`Sections.Sound`).
-/

namespace SmallLisp

open World

/-- The second world is registered and keeps what stands in the first one. If it came about while the table of
threads of the registry was locked, this table is as before, and only what is new has been added. -/
structure World.Evolves (r : RegistryId) (locked : Prop) (w u : World) : Prop where
  registered : u.Registered
  keeps : w.Keeps u
  threads : locked → (u.registry r).threads = (w.registry r).threads
  adds : locked → w.Adds r u

namespace World.Evolves

variable {r : RegistryId} {p q : Prop} {w u x : World}

theorem refl (h : w.Registered) : w.Evolves r p w :=
  ⟨h, .refl w, fun _ => rfl, fun _ => .refl r w⟩

theorem trans (h : w.Evolves r p u) (h' : u.Evolves r p x) : w.Evolves r p x :=
  ⟨h'.registered, h.keeps.trans h'.keeps, fun hp => (h'.threads hp).trans (h.threads hp),
    fun hp => (h.adds hp).trans (h'.adds hp)⟩

theorem mono (h : w.Evolves r p u) (hq : q → p) : w.Evolves r q u :=
  ⟨h.registered, h.keeps, fun hp => h.threads (hq hp), fun hp => h.adds (hq hp)⟩

theorem lt (h : w.Evolves r p u) (hr : r < w.registries.size) : r < u.registries.size :=
  Nat.lt_of_lt_of_le hr h.keeps.registries_le

theorem find (h : w.Evolves r p u) {name : String} {n : Namespace} (hn : w.findNamespace? r name = some n) :
    u.findNamespace? r name = some n :=
  h.keeps.find hn

end World.Evolves

namespace World

variable {w : World}

theorem evolves_internNamespace (h : w.Registered) (r : RegistryId) (name : String) :
    w.Evolves r True (w.internNamespace r name).2 :=
  ⟨h.internNamespace r name, w.keeps_internNamespace r name, fun _ => w.threads_internNamespace r r name,
    fun _ => w.adds_internNamespace r name⟩

theorem evolves_internVarIn (h : w.Registered) {r : RegistryId} {s : Symbol} {n : Namespace}
    (hn : w.findNamespace? r s.ns = some n) : w.Evolves r True (w.internVarIn n s).2 := by
  have hhas := hasNamespace_of_find hn
  refine ⟨h.internVarIn_of_has hhas ((h.named r).namespace_name (mem_of_lookup hn)).symm,
    w.keeps_internVarIn n s, fun _ => ?_, fun _ => w.adds_internVarIn r (h.only hhas) s⟩
  rw [registry_internVarIn]

theorem evolves_internKeyword (h : w.Registered) (r : RegistryId) (s : Symbol) :
    w.Evolves r True (w.internKeyword r s).2 := by
  refine ⟨h.internKeyword r s, w.keeps_internKeyword r s, fun _ => ?_, fun _ => w.adds_internKeyword r s⟩
  unfold internKeyword
  split
  · rfl
  · dsimp only
    rw [registry_modifyRegistry]
    split <;> rfl

theorem evolves_newPrivateVar (h : w.Registered) (r : RegistryId) (owner : Namespace) (name : Symbol)
    (root : Option Value) : w.Evolves r True (w.newPrivateVar owner name root).2 :=
  ⟨h.newPrivateVar owner name root, w.keeps_newPrivateVar owner name root, fun _ => rfl,
    fun _ => w.adds_newPrivateVar r owner name root⟩

theorem evolves_setRoot (h : w.Registered) (r : RegistryId) (v : Var) (x : Value) :
    w.Evolves r True (w.setRoot v x) :=
  ⟨h.setRoot v x, w.keeps_setRoot v x, fun _ => rfl, fun _ => w.adds_setRoot r v x⟩

end World

/-! ## Locks -/

namespace Lock

/-- Whether a thread may do this with the lock that keeps it, or does not keep it. -/
def Fits : Lock → Bool → Prop
  | other, _ => True
  | look, held | enter, held => held = false
  | leave, held => held = true

/-- Whether the thread keeps the lock afterwards. -/
def keeps : Lock → Bool → Bool
  | other, held => held
  | look, _ | leave, _ => false
  | enter, _ => true

end Lock

/-! ## Soundness -/

namespace Sections

variable {α β : Type}

/-- Whatever other threads do in between, each section evolves the world, and in the end the thread keeps
the lock, or does not, as `last` says, and what has been computed is as `Q` says. -/
def Sound (r : RegistryId) (last : Bool) (Q : World → α → Prop) : Bool → Sections α → World → Prop
  | held, done x, w => held = last ∧ Q w x
  | held, step lock effect next, w => lock.Fits held ∧ ∀ u, w.Evolves r (held = true) u →
      u.Evolves r (lock ≠ .leave) (effect u) ∧ (next u).Sound r last Q (lock.keeps held) (effect u)

variable {r : RegistryId} {held mid last : Bool} {w u : World}

theorem Sound.pure {Q : World → α → Prop} {x : α} (h : Q w x) : Sound r held Q held (pure x) w := ⟨rfl, h⟩

/-- One computation after the other is sound. -/
theorem Sound.bind {Q : World → α → Prop} {Q' : World → β → Prop} {p : Sections α} {f : α → Sections β}
    (hp : Sound r mid Q held p w) (hf : ∀ u x, Q u x → Sound r last Q' mid (f x) u) :
    Sound r last Q' held (p >>= f) w := by
  induction p generalizing held w with
  | done x =>
    obtain ⟨rfl, hx⟩ := hp
    exact hf w x hx
  | step lock effect next ih =>
    refine ⟨hp.1, fun u hu => ?_⟩
    obtain ⟨heffect, hnext⟩ := hp.2 u hu
    exact ⟨heffect, ih u hnext⟩

theorem Sound.imp {Q Q' : World → α → Prop} {p : Sections α} (hp : Sound r last Q held p w)
    (hQ : ∀ u x, Q u x → Q' u x) : Sound r last Q' held p w := by
  induction p generalizing held w with
  | done x => exact ⟨hp.1, hQ w x hp.2⟩
  | step lock effect next ih => exact ⟨hp.1, fun u hu => ⟨(hp.2 u hu).1, ih u (hp.2 u hu).2⟩⟩

/-- Other threads may come in first. -/
theorem Sound.evolves {Q : World → α → Prop} {p : Sections α}
    (hQ : ∀ {w u x}, Q w x → w.Evolves r (last = true) u → Q u x)
    (hp : Sound r last Q held p w) (hu : w.Evolves r (held = true) u) : Sound r last Q held p u := by
  cases p with
  | done x =>
    obtain ⟨rfl, hx⟩ := hp
    exact ⟨rfl, hQ hx hu⟩
  | step lock effect next => exact ⟨hp.1, fun x hx => hp.2 x (hu.trans hx)⟩

theorem sound_once {Q : World → α → Prop} (lock : Lock) {f : World → α × World} (hlock : lock.Fits held)
    (h : ∀ u, w.Evolves r (held = true) u → u.Evolves r (lock ≠ .leave) (f u).2 ∧ Q (f u).2 (f u).1) :
    Sound r (lock.keeps held) Q held (once lock f) w :=
  ⟨hlock, fun u hu => ⟨(h u hu).1, rfl, (h u hu).2⟩⟩

/-- Looking is sound. -/
theorem sound_ask {Q : World → α → Prop} {f : World → α} (h : ∀ u, w.Evolves r (held = true) u → Q u (f u)) :
    Sound r held Q held (ask f) w :=
  sound_once .other trivial fun u hu => ⟨.refl hu.registered, h u hu⟩

/-- What is found is right, and so is what is made, in whatever world it is looked for. -/
theorem sound_intern {Q : World → α → Prop} {find : World → Option α} {make : World → α × World}
    (hfind : ∀ u x, w.Evolves r (held = true) u → find u = some x → Q u x)
    (hmake : ∀ u, w.Evolves r (held = true) u → u.Evolves r True (make u).2 ∧ Q (make u).2 (make u).1) :
    Sound r held Q held (intern find make) w := by
  have hask : Sound r held (fun u found => w.Evolves r (held = true) u ∧ ∀ x, found = some x → Q u x) held
      (ask find) w := sound_ask fun u hu => ⟨hu, fun x => hfind u x hu⟩
  refine hask.bind fun u found ⟨hu, hfound⟩ => ?_
  cases found with
  | some x => exact .pure (hfound x rfl)
  | none =>
    refine sound_once .other trivial fun x hx => ?_
    obtain ⟨heffect, hQ⟩ := hmake x (hu.trans hx)
    exact ⟨heffect.mono fun _ => trivial, hQ⟩

/-! ## The operations -/

theorem sound_internNamespace (hr : r < w.registries.size) (name : String) :
    Sound r held (fun u n => w.Evolves r (held = true) u ∧ u.findNamespace? r name = some n) held
      (internNamespace r name) w := by
  refine sound_intern (fun u n hu hn => ⟨hu, hn⟩) fun u hu => ?_
  have hmade := evolves_internNamespace hu.registered r name
  exact ⟨hmade, hu.trans (hmade.mono fun _ => trivial), u.find_internNamespace (hu.lt hr) name⟩

theorem sound_internVarIn {n : Namespace} {s : Symbol} (hn : w.findNamespace? r s.ns = some n) :
    Sound r held (fun u v => w.Evolves r (held = true) u ∧ u.findVarIn? n s = some v) held
      (internVarIn n s) w := by
  refine sound_intern (fun u v hu hv => ⟨hu, hv⟩) fun u hu => ?_
  have hmade := evolves_internVarIn hu.registered (hu.find hn)
  have hlt := hu.registered.namespace_lt (hasNamespace_of_find (hu.find hn))
  exact ⟨hmade, hu.trans (hmade.mono fun _ => trivial), find_internVarIn hlt s⟩

theorem sound_internKeyword (hr : r < w.registries.size) (s : Symbol) :
    Sound r held (fun u k => w.Evolves r (held = true) u ∧ (u.registry r).keywords.lookup s = some k) held
      (internKeyword r s) w := by
  refine sound_intern (fun u k hu hk => ⟨hu, hk⟩) fun u hu => ?_
  have hmade := evolves_internKeyword hu.registered r s
  exact ⟨hmade, hu.trans (hmade.mono fun _ => trivial), u.lookup_internKeyword r (hu.lt hr) s⟩

theorem sound_internVar (hw : w.Registered) (s : Symbol) :
    Sound r held (fun u v? => w.Evolves r (held = true) u ∧ ∀ v, v? = .ok v →
      ∃ n, u.findNamespace? r s.ns = some n ∧ u.findVarIn? n s = some v) held (internVar r s) w := by
  unfold internVar
  split
  · refine (sound_ask (Q := fun u n? => w.Evolves r (held = true) u ∧ u.findNamespace? r s.ns = n?)
      fun u hu => ⟨hu, rfl⟩).bind fun u n? ⟨hu, hn⟩ => ?_
    cases n? with
    | some n =>
      refine (sound_internVarIn hn).bind fun x v ⟨hx, hv⟩ => .pure ⟨hu.trans hx, ?_⟩
      rintro v' ⟨⟩
      exact ⟨n, hx.find hn, hv⟩
    | none => exact .pure ⟨hu, nofun⟩
  · exact .pure ⟨.refl hw, nofun⟩

/-- A new var is owned by the namespace that it is made for. -/
theorem sound_newPrivateVar {core : Namespace} {name : Symbol} {root : Option Value} :
    Sound r held (fun u v => w.Evolves r (held = true) u ∧ w.cells.size ≤ v.id ∧ v.id < u.cells.size ∧
      (u.cell v).owner = core) held (once .other (·.newPrivateVar core name root)) w := by
  refine sound_once .other trivial fun u hu => ?_
  have hmade := evolves_newPrivateVar hu.registered r core name root
  refine ⟨hmade.mono fun _ => trivial, hu.trans (hmade.mono fun _ => trivial), hu.keeps.cells_le, ?_, ?_⟩
  · simp [newPrivateVar]
  · unfold newPrivateVar cell
    dsimp only
    rw [Array.getElem?_push_size]
    rfl

/-- A thread that has kept the lock gives itself a state, made of a var that is new since then. -/
theorem evolves_addThread {here : Site} {z : World} {state : ThreadState} (hw : w.Registered)
    (hr : here.registry < w.registries.size) (hnew : w.threadState? here = none)
    (hz : w.Evolves here.registry (true = true) z) (hle : w.cells.size ≤ state.current.id)
    (hlt : state.current.id < z.cells.size) (hstate : z.CoreState here.registry state) :
    z.Evolves here.registry (Lock.leave ≠ .leave)
        (z.modifyRegistry here.registry (·.addThread here.thread state)) ∧
      (z.modifyRegistry here.registry (·.addThread here.thread state)).threadState? here = some state := by
  have hthreads := hz.threads rfl
  have hnone : (z.registry here.registry).threads.lookup here.thread = none := hthreads.symm ▸ hnew
  have hapart := (adds_addThread (hz.adds rfl) (.inr ⟨hle, hlt⟩) here.thread).apart hw.toApart
  have hregistered := hz.registered.addThread hapart hnone (fun _ => hstate) hlt fun t' state' hmem =>
    Nat.ne_of_lt (Nat.lt_of_lt_of_le (hw.var_lt (.thread (hthreads ▸ hmem) rfl)) hle)
  refine ⟨⟨hregistered, z.keeps_addThread _ hnone state, fun h => absurd rfl h, fun h => absurd rfl h⟩, ?_⟩
  unfold threadState?
  rw [registry_modifyRegistry, if_pos ⟨rfl, hz.lt hr⟩]
  exact List.lookup_cons_self

/-- A thread that has no state yet gets one. -/
theorem sound_beginThread (here : Site) (hw : w.Registered) (hr : here.registry < w.registries.size)
    (hnew : w.threadState? here = none) :
    Sound here.registry false
      (fun u state => w.Evolves here.registry False u ∧ u.threadState? here = some state) true
      (beginThread here) w := by
  refine (sound_internNamespace hr coreName).bind fun u core ⟨hu, hcore⟩ => ?_
  refine sound_newPrivateVar.bind fun x current ⟨hx, hle, hlt, howner⟩ => ?_
  refine (sound_internVarIn (s := switchSymbol) (hx.find hcore)).bind fun y switch ⟨hy, hswitch⟩ => ?_
  refine sound_once .leave rfl fun z hz => ?_
  have hxz := hy.trans hz
  have hwz := (hu.trans hx).trans hxz
  have howner' : (z.cell current).owner = core := (hxz.keeps.owner hlt).trans howner
  have hstate : z.CoreState here.registry ⟨current, switch⟩ := by
    constructor
    · rw [howner']
      exact (hx.trans hxz).find hcore
    · rw [howner']
      exact hz.keeps.var hswitch
  obtain ⟨hadded, hfound⟩ := evolves_addThread hw hr hnew hwz (Nat.le_trans hu.keeps.cells_le hle)
    (Nat.lt_of_lt_of_le hlt hxz.keeps.cells_le) hstate
  exact ⟨hadded, (hwz.mono False.elim).trans (hadded.mono False.elim), hfound⟩

/-- A thread may look for its state whenever it does not keep the lock. -/
theorem sound_findThread (here : Site) (lock : Lock) (hlock : lock.Fits false) :
    Sound here.registry (lock.keeps false)
      (fun u state? => w.Evolves here.registry False u ∧ u.threadState? here = state?) false
      (once lock fun w => (w.threadState? here, w)) w :=
  sound_once lock hlock fun _ hu => ⟨.refl hu.registered, hu.mono False.elim, rfl⟩

/-- The state of a thread is found, or made under the lock. -/
theorem sound_threadState (here : Site) (hr : here.registry < w.registries.size) :
    Sound here.registry false
      (fun u state => w.Evolves here.registry False u ∧ u.threadState? here = some state) false
      (threadState here) w := by
  refine (sound_findThread here .look rfl).bind fun u state? ⟨hu, hstate⟩ => ?_
  cases state? with
  | some state => exact .pure ⟨hu, hstate⟩
  | none =>
    refine (sound_findThread here .enter rfl).bind fun x state? ⟨hx, hstate⟩ => ?_
    cases state? with
    | some state =>
      refine sound_once .leave rfl fun y hy => ⟨.refl hy.registered, ?_, ?_⟩
      · exact (hu.trans hx).trans (hy.mono False.elim)
      · unfold threadState?
        rw [hy.threads rfl]
        exact hstate
    | none =>
      have hbegin := sound_beginThread here hx.registered ((hu.trans hx).lt hr) hstate
      exact hbegin.imp fun y state ⟨hy, hfound⟩ => ⟨(hu.trans hx).trans hy, hfound⟩

/-- The keyword that is written with one colon has the name that is written. -/
theorem sound_readKeyword (here : Site) (hr : here.registry < w.registries.size) (s : Symbol) :
    Sound here.registry false (fun u k? => w.Evolves here.registry False u ∧ ∃ k, k? = .ok k ∧ k.sym = s ∧
      (u.registry here.registry).keywords.lookup s = some k) false (readKeyword here s false) w := by
  refine (sound_internKeyword hr s).bind fun u k ⟨hu, hk⟩ => .pure ⟨hu.mono False.elim, k, rfl, ?_, hk⟩
  exact ((hu.registered.named _).keyword_name (mem_of_lookup hk)).1

/-- The keyword that is written with two colons has the name in the current namespace. -/
theorem sound_readKeyword_auto (here : Site) (hw : w.Registered) (hr : here.registry < w.registries.size)
    (s : Symbol) : Sound here.registry false (fun u k? => w.Evolves here.registry False u ∧ ∀ k, k? = .ok k →
      ∃ name, k.sym = s.inNamespace name ∧ (u.registry here.registry).keywords.lookup k.sym = some k) false
      (readKeyword here s true) w := by
  unfold readKeyword
  rw [if_neg (by decide)]
  split
  · exact .pure ⟨.refl hw, nofun⟩
  · refine (sound_threadState here hr).bind fun u state ⟨hu, _⟩ => ?_
    have hask : Sound here.registry false (fun x _ => w.Evolves here.registry False x) false
        (ask state.currentIn) u := sound_ask fun x hx => hu.trans (hx.mono False.elim)
    refine hask.bind fun x n? hx => ?_
    cases n? with
    | ok n =>
      have hread := sound_readKeyword here (hx.lt hr) (s.inNamespace n.name)
      refine hread.imp fun y k? ⟨hy, k, hok, hsym, hk⟩ => ⟨hx.trans hy, fun k' hk' => ?_⟩
      obtain rfl := Except.ok.inj (hok.symm.trans hk')
      exact ⟨n.name, hsym, hsym.symm ▸ hk⟩
    | error fault => exact .pure ⟨hx, nofun⟩

theorem sound_switchNamespace (here : Site) (hr : here.registry < w.registries.size) (name : String) :
    Sound here.registry false (fun u n => w.Evolves here.registry False u ∧
      u.findNamespace? here.registry name = some n) false (switchNamespace here name) w := by
  refine (sound_internNamespace hr name).bind fun u n ⟨hu, hn⟩ => ?_
  refine (sound_threadState here ((hu.mono False.elim).lt hr)).bind fun x state ⟨hx, hstate⟩ => ?_
  refine sound_once .other trivial fun y hy => ?_
  have hset := evolves_setRoot hy.registered here.registry state.current (.ns n)
  have hwy := (hx.trans (hy.mono False.elim)).trans (hset.mono False.elim)
  exact ⟨hset.mono fun _ => trivial, (hu.mono False.elim).trans hwy, hwy.find hn⟩

end Sections

end SmallLisp
