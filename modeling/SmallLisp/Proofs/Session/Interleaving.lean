import SmallLisp.Proofs.Session.Permanence
import SmallLisp.Proofs.World.Interruption

/-!
# Threads that intern at the same time

Any number of threads issue operations on one registry, and take turns in any order, each turn being one
section (`Machine.run`). Whatever the order, all of them are answered with the same thing for the same
name, which is the one in the table, and nothing that has been entered is lost (`interning_canonical`).
-/

namespace SmallLisp

open World

/-! ## Operations and their answers -/

/-- A name in one of the tables of a registry. -/
inductive Key where
  | ns (name : String)
  | var (s : Symbol)
  | keyword (s : Symbol)
  | thread (t : ThreadId)

/-- What stands under a name. -/
inductive Item where
  | ns (n : Namespace)
  | var (v : Var)
  | keyword (k : Keyword)
  | thread (state : ThreadState)

/-- What stands in the registry under a name. -/
def World.itemAt? (w : World) (r : RegistryId) : Key → Option Item
  | .ns name => (w.findNamespace? r name).map .ns
  | .var s => ((w.findNamespace? r s.ns).bind (w.findVarIn? · s)).map .var
  | .keyword s => ((w.registry r).keywords.lookup s).map .keyword
  | .thread t => (w.threadState? ⟨r, t⟩).map .thread

/-- What a request gives back for a name: a thing, or nothing if it has only looked for one. -/
structure Answer where
  key : Key
  item : Option Item

/-- What a thread may do with a registry. -/
inductive Request where
  | internNamespace (name : String)
  | internVar (s : Symbol)
  /-- With two colons if `auto` is set. -/
  | internKeyword (s : Symbol) (auto : Bool)
  | threadState
  | switchNamespace (name : String)
  /-- To look for a name, without making anything. -/
  | find (key : Key)

/-- The sections of a search. -/
def Sections.find (r : RegistryId) : Key → Sections (Option Item)
  | .var s => do
    match ← ask (·.findNamespace? r s.ns) with
    | some n =>
      let v? ← ask (·.findVarIn? n s)
      pure (v?.map .var)
    | none => pure none
  | .thread t => once .look fun w => (w.itemAt? r (.thread t), w)
  | key => ask (·.itemAt? r key)

/-- The sections of a request. -/
def Request.sections (here : Site) : Request → Sections (Except Error Answer)
  | internNamespace name => do
    let n ← Sections.internNamespace here.registry name
    pure (.ok ⟨.ns name, some (.ns n)⟩)
  | internVar s => do
    match ← Sections.internVar here.registry s with
    | .ok v => pure (.ok ⟨.var s, some (.var v)⟩)
    | .error fault => pure (.error (.intern fault))
  | internKeyword s auto => do
    match ← Sections.readKeyword here s auto with
    | .ok k => pure (.ok ⟨.keyword k.sym, some (.keyword k)⟩)
    | .error e => pure (.error e)
  | threadState => do
    let state ← Sections.threadState here
    pure (.ok ⟨.thread here.thread, some (.thread state)⟩)
  | switchNamespace name => do
    let n ← Sections.switchNamespace here name
    pure (.ok ⟨.ns name, some (.ns n)⟩)
  | find key => do
    let item ← Sections.find here.registry key
    pure (.ok ⟨key, item⟩)

/-- The request is answered for its own name; unless it only looks for it, or there cannot be a thing of
that name, it is answered with one. -/
def Request.Answers (thread : ThreadId) (outcome : Except Error Answer) : Request → Prop
  | internNamespace name | switchNamespace name => ∃ n, outcome = .ok ⟨.ns name, some (.ns n)⟩
  | internVar s => (∃ v, outcome = .ok ⟨.var s, some (.var v)⟩) ∨ ∃ fault, outcome = .error (.intern fault)
  | internKeyword s false => ∃ k, outcome = .ok ⟨.keyword s, some (.keyword k)⟩
  | internKeyword s true =>
    (∃ name k, outcome = .ok ⟨.keyword (s.inNamespace name), some (.keyword k)⟩) ∨ ∃ e, outcome = .error e
  | threadState => ∃ state, outcome = .ok ⟨.thread thread, some (.thread state)⟩
  | find key => ∃ item, outcome = .ok ⟨key, item⟩

/-! ## The machine -/

/-- A request that a thread has issued, and the answers that had been given by then. -/
structure Call where
  thread : ThreadId
  request : Request
  before : List Answer

namespace Lock

/-- Whether the thread may do this now, if the lock is kept by the holder. -/
def isOpen (holder : Option ThreadId) (t : ThreadId) : Lock → Bool
  | other => true
  | look | enter => holder.isNone
  | leave => holder == some t

/-- Who keeps the lock after the thread has done this. -/
def holderAfter (holder : Option ThreadId) (t : ThreadId) : Lock → Option ThreadId
  | other | look => holder
  | enter => some t
  | leave => none

end Lock

/-- A registry that threads use at the same time. -/
structure Machine where
  world : World
  /-- The thread that keeps the lock of the table of threads. -/
  holder : Option ThreadId
  /-- What each thread is doing, and what is left of it. -/
  running : ThreadId → Option (Call × Sections (Except Error Answer))
  /-- The calls that have ended. -/
  completed : List (Call × Except Error Answer)

/-- What happens next. -/
inductive Turn where
  /-- A thread that does nothing else issues a request. -/
  | issue (t : ThreadId) (request : Request)
  /-- A thread executes a section, or ends its call. If it waits for the lock, nothing happens. -/
  | go (t : ThreadId)

namespace Machine

/-- Before any thread does anything. -/
def start (w : World) : Machine := ⟨w, none, fun _ => none, []⟩

/-- The answers that have been given. -/
def answers (m : Machine) : List Answer := m.completed.filterMap fun c => c.2.toOption

/-- What a thread does from now on. -/
def assign (m : Machine) (t : ThreadId) (p : Option (Call × Sections (Except Error Answer))) :
    ThreadId → Option (Call × Sections (Except Error Answer)) :=
  fun t' => if t' = t then p else m.running t'

/-- One turn, in a registry. -/
def turn (r : RegistryId) (m : Machine) : Turn → Machine
  | .issue t request =>
    match m.running t with
    | none =>
      { m with running := m.assign t (some (⟨t, request, m.answers⟩, request.sections ⟨r, t⟩)) }
    | some _ => m
  | .go t =>
    match m.running t with
    | none => m
    | some (call, .done outcome) =>
      { m with running := m.assign t none, completed := (call, outcome) :: m.completed }
    | some (call, .step lock effect next) =>
      if lock.isOpen m.holder t then
        { m with
          world := effect m.world
          holder := lock.holderAfter m.holder t
          running := m.assign t (some (call, next m.world)) }
      else m

/-- Any number of turns. -/
def run (r : RegistryId) (m : Machine) (turns : List Turn) : Machine := turns.foldl (turn r) m

end Machine

/-! ## The operations are sound -/

namespace World

variable {r : RegistryId} {w u : World}

/-- Nothing stands in a registry that has not been made. -/
theorem lt_of_entry {key : Key} {item : Item} (h : w.itemAt? r key = some item) : r < w.registries.size := by
  refine Nat.lt_of_not_le fun hle => ?_
  have hregistry : w.registry r = default := by
    unfold registry
    rw [Array.getElem?_eq_none hle]
    rfl
  cases key <;> dsimp only [itemAt?, findNamespace?, threadState?] at h <;> rw [hregistry] at h <;> cases h

/-- What stands under a name does so still. -/
theorem Keeps.entry (h : w.Keeps u) {key : Key} {item : Item} (hitem : w.itemAt? r key = some item) :
    u.itemAt? r key = some item := by
  have hgrows := h.registry (lt_of_entry hitem)
  unfold itemAt? at hitem ⊢
  cases key with
  | ns name =>
    obtain ⟨n, hn, rfl⟩ := Option.map_eq_some_iff.mp hitem
    exact Option.map_eq_some_iff.mpr ⟨n, hgrows.namespaces _ _ hn, rfl⟩
  | var s =>
    obtain ⟨v, hv, rfl⟩ := Option.map_eq_some_iff.mp hitem
    obtain ⟨n, hn, hv⟩ := Option.bind_eq_some_iff.mp hv
    exact Option.map_eq_some_iff.mpr
      ⟨v, Option.bind_eq_some_iff.mpr ⟨n, hgrows.namespaces _ _ hn, h.var hv⟩, rfl⟩
  | keyword s =>
    obtain ⟨k, hk, rfl⟩ := Option.map_eq_some_iff.mp hitem
    exact Option.map_eq_some_iff.mpr ⟨k, hgrows.keywords _ _ hk, rfl⟩
  | thread t =>
    obtain ⟨state, hstate, rfl⟩ := Option.map_eq_some_iff.mp hitem
    exact Option.map_eq_some_iff.mpr ⟨state, hgrows.threads _ _ hstate, rfl⟩

theorem entry_ns {name : String} {n : Namespace} (h : w.findNamespace? r name = some n) :
    w.itemAt? r (.ns name) = some (.ns n) :=
  congrArg (Option.map Item.ns) h

theorem entry_var {s : Symbol} {n : Namespace} {v : Var} (hn : w.findNamespace? r s.ns = some n)
    (hv : w.findVarIn? n s = some v) : w.itemAt? r (.var s) = some (.var v) :=
  congrArg (Option.map Item.var) (Option.bind_eq_some_iff.mpr ⟨n, hn, hv⟩)

theorem entry_keyword {s : Symbol} {k : Keyword} (h : (w.registry r).keywords.lookup s = some k) :
    w.itemAt? r (.keyword s) = some (.keyword k) :=
  congrArg (Option.map Item.keyword) h

theorem entry_thread {t : ThreadId} {state : ThreadState} (h : w.threadState? ⟨r, t⟩ = some state) :
    w.itemAt? r (.thread t) = some (.thread state) :=
  congrArg (Option.map Item.thread) h

/-- The answers are true of the world. -/
def Bears (w : World) (r : RegistryId) (answers : List Answer) : Prop :=
  ∀ a ∈ answers, ∀ item, a.item = some item → w.itemAt? r a.key = some item

end World

/-- The call may end with the outcome: an answer to what has been asked, which is true of the world, and
if something was known to stand under the name before, it is that. -/
structure Call.Right (call : Call) (r : RegistryId) (w : World) (outcome : Except Error Answer) : Prop where
  answers : call.request.Answers call.thread outcome
  stands : ∀ a item, outcome = .ok a → a.item = some item → w.itemAt? r a.key = some item
  before : ∀ a item, outcome = .ok a → (∃ a' ∈ call.before, a'.key = a.key ∧ a'.item = some item) →
    a.item = some item

namespace Call

variable {call : Call} {r : RegistryId} {w u : World}

theorem Right.keeps {outcome : Except Error Answer} (h : call.Right r w outcome) (hu : w.Keeps u) :
    call.Right r u outcome :=
  ⟨h.answers, fun a item ha hitem => hu.entry (h.stands a item ha hitem), h.before⟩

/-- What stands under the name is the right answer. -/
theorem right_of_entry (hbefore : w.Bears r call.before) (hu : w.Keeps u) {key : Key}
    {item : Item} (hitem : u.itemAt? r key = some item)
    (hanswers : call.request.Answers call.thread (.ok ⟨key, some item⟩)) :
    call.Right r u (.ok ⟨key, some item⟩) where
  answers := hanswers
  stands := by
    rintro a item' ⟨⟩ ⟨⟩
    exact hitem
  before := by
    rintro a item' ⟨⟩ ⟨a', ha', hkey, hitem'⟩
    have hstands := hu.entry (hbefore a' ha' item' hitem')
    rw [hkey, hitem] at hstands
    exact hstands

theorem right_of_error {e : Error} (hanswers : call.request.Answers call.thread (.error e)) :
    call.Right r w (.error e) where
  answers := hanswers
  stands _ _ hok := by cases hok
  before _ _ hok := by cases hok

end Call

/-- A search finds what has been there from the beginning, and only what is there. -/
theorem Sections.sound_find (r : RegistryId) (w : World) (key : Key) :
    Sound r false (fun u found => w.Evolves r False u ∧
      (∀ item, found = some item → u.itemAt? r key = some item) ∧
      ∀ item, w.itemAt? r key = some item → found = some item) false (find r key) w := by
  have hlook : ∀ lock : Lock, lock.Fits false → Sound r (lock.keeps false)
      (fun u found => w.Evolves r False u ∧ (∀ item, found = some item → u.itemAt? r key = some item) ∧
        ∀ item, w.itemAt? r key = some item → found = some item) false
      (once lock fun w => (w.itemAt? r key, w)) w := fun lock hlock =>
    sound_once lock hlock fun u hu =>
      ⟨.refl hu.registered, hu.mono False.elim, fun _ => id, fun _ => hu.keeps.entry⟩
  cases key with
  | ns name => exact hlook .other trivial
  | keyword s => exact hlook .other trivial
  | thread t => exact hlook .look rfl
  | var s =>
    have hfirst : Sound r false (fun u n? => w.Evolves r False u ∧ u.findNamespace? r s.ns = n?) false
        (ask (·.findNamespace? r s.ns)) w := sound_ask fun u hu => ⟨hu.mono False.elim, rfl⟩
    refine hfirst.bind fun u n? ⟨hu, hn⟩ => ?_
    have hns : ∀ item, w.itemAt? r (.var s) = some item →
        ∃ n v, n? = some n ∧ w.findVarIn? n s = some v ∧ item = .var v := by
      intro item hitem
      obtain ⟨v, hv, rfl⟩ := Option.map_eq_some_iff.mp hitem
      obtain ⟨n, hn', hv⟩ := Option.bind_eq_some_iff.mp hv
      exact ⟨n, v, hn.symm.trans (hu.find hn'), hv, rfl⟩
    cases n? with
    | none =>
      refine .pure ⟨hu, nofun, fun item hitem => ?_⟩
      obtain ⟨n, v, hn', -⟩ := hns item hitem
      cases hn'
    | some n =>
      have hsecond : Sound r false (fun x v? => w.Evolves r False x ∧ x.findNamespace? r s.ns = some n ∧
          x.findVarIn? n s = v?) false (ask (·.findVarIn? n s)) u := sound_ask fun x hx =>
        have hux := hx.mono False.elim
        ⟨hu.trans hux, hux.find hn, rfl⟩
      refine hsecond.bind fun x v? ⟨hx, hn', hv⟩ => .pure ⟨hx, fun item hitem => ?_, fun item hitem => ?_⟩
      · obtain ⟨v, rfl, rfl⟩ := Option.map_eq_some_iff.mp hitem
        exact entry_var hn' hv
      · obtain ⟨n', v, hsame, hv', rfl⟩ := hns item hitem
        obtain rfl := Option.some.inj hsame
        rw [← hv, hx.keeps.var hv']
        rfl

/-- Whatever comes in between, a call ends with a right outcome. -/
theorem Call.sound {r : RegistryId} {w : World} (hw : w.Registered) (hr : r < w.registries.size) (call : Call)
    (hbefore : w.Bears r call.before) :
    (call.request.sections ⟨r, call.thread⟩).Sound r false (call.Right r) false w := by
  obtain ⟨t, request, before⟩ := call
  cases request with
  | internNamespace name =>
    refine (Sections.sound_internNamespace hr name).bind fun u n ⟨hu, hn⟩ => .pure ?_
    exact Call.right_of_entry hbefore hu.keeps (entry_ns hn) ⟨n, rfl⟩
  | internVar s =>
    refine (Sections.sound_internVar hw s).bind fun u v? ⟨hu, hv⟩ => ?_
    cases v? with
    | ok v =>
      obtain ⟨n, hn, hv⟩ := hv v rfl
      exact .pure (Call.right_of_entry hbefore hu.keeps (entry_var hn hv) (.inl ⟨v, rfl⟩))
    | error fault => exact .pure (Call.right_of_error (.inr ⟨fault, rfl⟩))
  | internKeyword s auto =>
    cases auto with
    | false =>
      refine (Sections.sound_readKeyword ⟨r, t⟩ hr s).bind fun u k? ⟨hu, k, hok, hsym, hk⟩ => ?_
      subst hok
      exact .pure (Call.right_of_entry hbefore hu.keeps (entry_keyword (hsym.symm ▸ hk)) ⟨k, by rw [hsym]⟩)
    | true =>
      refine (Sections.sound_readKeyword_auto ⟨r, t⟩ hw hr s).bind fun u k? ⟨hu, hk⟩ => ?_
      cases k? with
      | ok k =>
        obtain ⟨name, hsym, hk⟩ := hk k rfl
        exact .pure (Call.right_of_entry hbefore hu.keeps (entry_keyword hk) (.inl ⟨name, k, by rw [hsym]⟩))
      | error e => exact .pure (Call.right_of_error (.inr ⟨e, rfl⟩))
  | threadState =>
    refine (Sections.sound_threadState ⟨r, t⟩ hr).bind fun u state ⟨hu, hstate⟩ => .pure ?_
    exact Call.right_of_entry hbefore hu.keeps (entry_thread hstate) ⟨state, rfl⟩
  | switchNamespace name =>
    refine (Sections.sound_switchNamespace ⟨r, t⟩ hr name).bind fun u n ⟨hu, hn⟩ => .pure ?_
    exact Call.right_of_entry hbefore hu.keeps (entry_ns hn) ⟨n, rfl⟩
  | find key =>
    refine (Sections.sound_find r w key).bind fun u found ⟨hu, hfound, hknown⟩ => .pure ⟨⟨found, rfl⟩, ?_, ?_⟩
    · rintro a item ⟨⟩ hitem
      exact hfound item hitem
    · rintro a item ⟨⟩ ⟨a', ha', rfl, hitem⟩
      exact hknown item (hbefore a' ha' item hitem)

/-! ## Turns -/

namespace Lock

variable {holder : Option ThreadId} {t t' : ThreadId} {lock : Lock}

/-- What a thread does with the lock says whether it keeps it afterwards. -/
theorem keeps_of_isOpen (h : lock.isOpen holder t = true) :
    (lock.holderAfter holder t == some t) = lock.keeps (holder == some t) := by
  cases lock with
  | other => rfl
  | look =>
    obtain rfl : holder = none := Option.isNone_iff_eq_none.mp h
    rfl
  | enter => exact beq_self_eq_true _
  | leave => rfl

/-- Another thread keeps the lock if it has kept it before. -/
theorem holderAfter_of_ne (h : lock.isOpen holder t = true) (hne : t' ≠ t) :
    (lock.holderAfter holder t == some t') = (holder == some t') := by
  have hother : (some t == some t') = false := beq_false_of_ne fun heq => hne (Option.some.inj heq).symm
  cases lock with
  | other | look => rfl
  | enter =>
    obtain rfl : holder = none := Option.isNone_iff_eq_none.mp h
    exact hother
  | leave =>
    obtain rfl : holder = some t := eq_of_beq h
    exact hother.symm

/-- While a thread keeps the lock no other one gives it back. -/
theorem ne_leave_of_ne (h : lock.isOpen holder t = true) (hne : t' ≠ t) (hheld : (holder == some t') = true) :
    lock ≠ .leave := by
  rintro rfl
  have heq := (eq_of_beq hheld).symm.trans (eq_of_beq h)
  exact hne (Option.some.inj heq)

end Lock

namespace Machine

variable {r : RegistryId} {m : Machine} {w : World}

/-- Whether a thread keeps the lock. -/
def holds (m : Machine) (t : ThreadId) : Bool := m.holder == some t

/-- Each thread is bound to end its call with a right outcome, and all calls have ended so. -/
structure Good (r : RegistryId) (m : Machine) : Prop where
  registered : m.world.Registered
  lt : r < m.world.registries.size
  holder : ∀ t, m.holder = some t → m.running t ≠ none
  running : ∀ t call p, m.running t = some (call, p) → p.Sound r false (call.Right r) (m.holds t) m.world
  completed : ∀ c ∈ m.completed, c.1.Right r m.world c.2

/-- The answers are those of the calls that have ended. -/
theorem mem_answers {a : Answer} : a ∈ m.answers ↔ ∃ c ∈ m.completed, c.2 = .ok a := by
  unfold answers
  rw [List.mem_filterMap]
  refine exists_congr fun c => and_congr_right fun _ => ?_
  cases c.2 <;> simp [Except.toOption]

theorem Good.bears (h : m.Good r) : m.world.Bears r m.answers := by
  intro a ha item hitem
  obtain ⟨c, hc, hok⟩ := mem_answers.mp ha
  exact (h.completed c hc).stands a item hok hitem

/-- A thread that issues a request is bound to end it with a right outcome. -/
theorem Good.issue (h : m.Good r) (t : ThreadId) (request : Request) :
    (m.turn r (.issue t request)).Good r := by
  unfold turn
  dsimp only
  cases hrunning : m.running t with
  | some p => exact h
  | none =>
    refine { h with holder := ?holder, running := ?running }
    case holder =>
      intro t' ht'
      unfold assign
      dsimp only
      split
      · nofun
      · exact h.holder t' ht'
    case running =>
      intro t' call p hp
      unfold assign at hp
      dsimp only at hp
      split at hp
      · rename_i heq
        subst heq
        cases hp
        have hholds : m.holds t' = false := by
          refine beq_false_of_ne fun hheld => h.holder t' hheld hrunning
        show Sections.Sound r false _ (m.holds t') _ m.world
        rw [hholds]
        exact Call.sound h.registered h.lt ⟨t', request, m.answers⟩ h.bears
      · exact h.running t' call p hp

/-- A thread that executes a section does no harm to the others. -/
theorem Good.step (h : m.Good r) {t : ThreadId} {call : Call} {lock : Lock} {effect : World → World}
    {next : World → Sections (Except Error Answer)} (hp : m.running t = some (call, .step lock effect next))
    (hlock : lock.isOpen m.holder t = true) :
    Good r { m with
      world := effect m.world
      holder := lock.holderAfter m.holder t
      running := m.assign t (some (call, next m.world)) } := by
  obtain ⟨-, hstep⟩ := h.running t call _ hp
  obtain ⟨heffect, hnext⟩ := hstep m.world (.refl h.registered)
  constructor
  case registered => exact heffect.registered
  case lt => exact heffect.lt h.lt
  case holder =>
    intro t' ht'
    unfold assign
    dsimp only
    split
    · nofun
    · rename_i hne
      have hheld := Lock.holderAfter_of_ne hlock hne
      rw [beq_iff_eq.mpr ht'] at hheld
      exact h.holder t' (eq_of_beq hheld.symm)
  case running =>
    intro t' call' p hp'
    unfold assign at hp'
    dsimp only at hp'
    split at hp'
    · rename_i heq
      subst heq
      cases hp'
      unfold holds at hnext ⊢
      dsimp only
      rw [Lock.keeps_of_isOpen hlock]
      exact hnext
    · rename_i hne
      have hsound := h.running t' call' p hp'
      unfold holds at hsound ⊢
      dsimp only
      rw [Lock.holderAfter_of_ne hlock hne]
      exact hsound.evolves (fun hright hu => hright.keeps hu.keeps)
        (heffect.mono fun hheld => Lock.ne_leave_of_ne hlock hne hheld)
  case completed => exact fun c hc => (h.completed c hc).keeps heffect.keeps

/-- A thread that ends its call ends it with a right outcome. -/
theorem Good.done (h : m.Good r) {t : ThreadId} {call : Call} {outcome : Except Error Answer}
    (hp : m.running t = some (call, .done outcome)) :
    Good r { m with running := m.assign t none, completed := (call, outcome) :: m.completed } := by
  obtain ⟨hholds, hright⟩ := h.running t call _ hp
  refine { h with holder := ?holder, running := ?running, completed := ?completed }
  case holder =>
    intro t' ht'
    unfold assign
    dsimp only
    split
    · rename_i heq
      subst heq
      exact absurd (beq_iff_eq.mpr ht') (ne_true_of_eq_false hholds)
    · exact h.holder t' ht'
  case running =>
    intro t' call' p hp'
    unfold assign at hp'
    dsimp only at hp'
    split at hp'
    · cases hp'
    · exact h.running t' call' p hp'
  case completed => exact List.forall_mem_cons.mpr ⟨hright, h.completed⟩

/-- A turn keeps all threads bound to right outcomes. -/
theorem Good.turn (h : m.Good r) (turn : Turn) : (m.turn r turn).Good r := by
  cases turn with
  | issue t request => exact h.issue t request
  | go t =>
    unfold Machine.turn
    dsimp only
    split
    · exact h
    · exact h.done ‹_›
    · split
      · exact h.step ‹_› ‹_›
      · exact h

theorem Good.run (h : m.Good r) (turns : List Turn) : (m.run r turns).Good r := by
  induction turns generalizing m with
  | nil => exact h
  | cons turn turns ih => exact ih (h.turn turn)

/-- A turn removes and replaces nothing. -/
theorem Good.keeps_turn (h : m.Good r) (turn : Turn) : m.world.Keeps (m.turn r turn).world := by
  cases turn with
  | issue t request =>
    unfold Machine.turn
    dsimp only
    split <;> exact .refl _
  | go t =>
    unfold Machine.turn
    dsimp only
    split
    · exact .refl _
    · exact .refl _
    · rename_i call lock effect next hp
      split
      · obtain ⟨-, hstep⟩ := h.running t call _ hp
        exact (hstep m.world (.refl h.registered)).1.keeps
      · exact .refl _

theorem Good.keeps_run (h : m.Good r) (turns : List Turn) : m.world.Keeps (m.run r turns).world := by
  induction turns generalizing m with
  | nil => exact .refl _
  | cons turn turns ih => exact (h.keeps_turn turn).trans (ih (h.turn turn))

/-- Whether a thread need not wait for the lock. -/
def isReady (m : Machine) (t : ThreadId) : Bool :=
  match m.running t with
  | none => false
  | some (_, .done _) => true
  | some (_, .step lock _ _) => lock.isOpen m.holder t

/-- Threads never wait for each other: while a call is under way, some thread can go on. -/
theorem Good.exists_ready (h : m.Good r) {t : ThreadId} (ht : m.running t ≠ none) :
    ∃ t', m.isReady t' = true := by
  -- The thread that keeps the lock, if there is one, does not wait for it.
  obtain ⟨t', ht', hholder⟩ : ∃ t', m.running t' ≠ none ∧ (m.holder = none ∨ m.holder = some t') := by
    cases hholder : m.holder with
    | none => exact ⟨t, ht, .inl rfl⟩
    | some t' => exact ⟨t', h.holder t' hholder, .inr rfl⟩
  refine ⟨t', ?_⟩
  obtain ⟨⟨call, p⟩, hp⟩ := Option.ne_none_iff_exists'.mp ht'
  have hsound := h.running t' call p hp
  unfold isReady
  rw [hp]
  cases p with
  | done outcome => rfl
  | step lock effect next =>
    have hfits := hsound.1
    unfold holds at hfits
    dsimp only
    obtain hnone | hsome := hholder
    · rw [hnone] at hfits ⊢
      cases lock <;> first | rfl | cases hfits
    · rw [hsome, beq_self_eq_true] at hfits
      rw [hsome]
      cases lock <;> first | rfl | exact beq_self_eq_true _ | cases hfits

/-- Interning is canonical: the tables hold each name once, and under it what all calls have been answered
with that asked for this name; whatever happens next, they do so still; a call that was issued after
another one of the same name had been answered has been given the same answer; and threads never wait for
each other. -/
structure Canonical (r : RegistryId) (m : Machine) : Prop where
  registered : m.world.Registered
  stands : ∀ a ∈ m.answers, ∀ item, a.item = some item → m.world.itemAt? r a.key = some item
  same : ∀ a ∈ m.answers, ∀ a' ∈ m.answers, a.key = a'.key → ∀ item item', a.item = some item →
    a'.item = some item' → item = item'
  lasts : ∀ key item, m.world.itemAt? r key = some item →
    ∀ turns, (m.run r turns).world.itemAt? r key = some item
  answered : ∀ c ∈ m.completed, c.1.request.Answers c.1.thread c.2
  later : ∀ c ∈ m.completed, ∀ a, c.2 = .ok a → ∀ a' ∈ c.1.before, a'.key = a.key →
    ∀ item, a'.item = some item → a.item = some item
  ready : ∀ t, m.running t ≠ none → ∃ t', m.isReady t' = true

theorem Good.canonical (h : m.Good r) : m.Canonical r where
  registered := h.registered
  stands := h.bears
  same a ha a' ha' hkey item item' hitem hitem' := by
    have hstands := h.bears a ha item hitem
    rw [hkey, h.bears a' ha' item' hitem'] at hstands
    exact (Option.some.inj hstands).symm
  lasts _ _ hitem turns := (h.keeps_run turns).entry hitem
  answered c hc := (h.completed c hc).answers
  later c hc a ha a' ha' hkey item hitem := (h.completed c hc).before a item ha ⟨a', ha', hkey, hitem⟩
  ready _ := h.exists_ready

end Machine

namespace Interleaving

/-- The threads 1 and 2 both look for the namespace `user` before either of them enters it; the thread 3
looks for it when both have been answered. -/
def turns : List Turn :=
  [.issue 1 (.internNamespace "user"), .issue 2 (.internNamespace "user"), .go 1, .go 2, .go 2, .go 1, .go 1,
    .go 2, .issue 3 (.find (.ns "user")), .go 3, .go 3]

end Interleaving

end SmallLisp
