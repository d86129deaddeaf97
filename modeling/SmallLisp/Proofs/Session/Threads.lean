import Mathlib
import SmallLisp.Proofs.Session.Course
import SmallLisp.Proofs.Session.Permanence
import SmallLisp.Proofs.World.Places

/-!
# Threads and their current namespaces

Any number of threads do jobs in any registries at the same time, deed by deed, make registries and copy them
(`Crew`). Where each thread has gone by itself is written down on the side (`Crew.standing`), and the world
agrees: every thread is in the namespace that it has gone to last, as long as nobody binds the vars by which
threads have their current namespaces (`current_namespace_per_thread`).
-/

namespace SmallLisp

open World

/-! ## Jobs -/

/-- Does an action and drops what it gives. -/
def Action.drop {α : Type} (a : Action α) : Action Unit := (fun _ => ()) <$> a

theorem Action.after_drop {α : Type} (a : Action α) (w : World) : a.drop.after w = a.after w := by
  unfold Action.after Action.drop
  simp only [Functor.map]
  unfold EStateM.map
  cases a w <;> rfl

/-- What a thread may be told to do in a registry. -/
inductive Job where
  /-- A text is evaluated. -/
  | eval (depth : Nat) (text : String)
  /-- A form is analysed and the expression is dropped. -/
  | analyze (depth : Nat) (scopes : List Scope) (form : Value)
  /-- A value is called. -/
  | call (depth : Nat) (f : Value) (args : List Value)
  /-- The next form of some lexemes is read. -/
  | read (lexemes : List Lexeme)
  | internNamespace (name : String)
  | internVar (s : Symbol)
  | internKeyword (s : Symbol)
  /-- The thread begins to use the registry. -/
  | useThread
  | switchNamespace (name : String)
  | uniqueName (stem : String)
  | setRoot (v : Var) (value : Value)
  | setMetadata (v : Var) (metadata : Value)

namespace Job

/-- The action that a job is, whatever it gives back. -/
def action (here : Site) : Job → Action Unit
  | eval depth text => (Session.evalText here depth text).drop
  | analyze depth scopes form => ((Analysis.meaning here depth form).inScopes scopes).drop
  | call depth f args => (apply here depth f args).drop
  | read lexemes => (Action.update (Reader.take · here lexemes)).drop
  | internNamespace name => (Action.update (·.internNamespace here.registry name)).drop
  | internVar s => (Action.update (·.internVar here.registry s)).drop
  | internKeyword s => (Action.update (·.internKeyword here.registry s)).drop
  | useThread => (Action.update (·.threadState here)).drop
  | switchNamespace name => (Action.update (·.switchNamespace here name)).drop
  | uniqueName stem => (Action.update (·.uniqueName stem)).drop
  | setRoot v value => Action.change (·.setRoot v value)
  | setMetadata v metadata => Action.change (·.setMetadata v metadata)

/-- The job as an event. -/
def event (here : Site) : Job → Event
  | eval depth text => .eval here depth text
  | analyze depth scopes form => .analyze here depth scopes form
  | call depth f args => .call here depth f args
  | read lexemes => .read here lexemes
  | internNamespace name => .internNamespace here.registry name
  | internVar s => .internVar here.registry s
  | internKeyword s => .internKeyword here.registry s
  | useThread => .useThread here
  | switchNamespace name => .switchNamespace here name
  | uniqueName stem => .uniqueName stem
  | setRoot v value => .setRoot v value
  | setMetadata v metadata => .setMetadata v metadata

variable {here : Site}

/-- Without others a job does what the event does. -/
theorem after_action (job : Job) (w : World) : (job.action here).after w = w.after (job.event here) := by
  cases job with
  | setRoot v value => rfl
  | setMetadata v metadata => rfl
  | _ => exact Action.after_drop _ w

end Job

/-! ## Threads at work -/

/-- On worlds that have the registry, the course comes to the action if nothing comes in between. -/
def Course.Does {α : Type} (here : Site) (c : Course α) (a : Action α) : Prop :=
  ∀ w : World, here.registry < w.registries.size → c.run here w = a w

/-- The name of the namespace that a deed goes to. -/
def Deed.destination : Deed → Option String
  | switchNamespace name => some name
  | _ => none

/-- The name of the namespace that a thread is in. -/
def World.placeName (w : World) (here : Site) : String :=
  match (w.currentNamespace here).1 with
  | .ok n => n.name
  | .error _ => coreName

/-- Threads that are at work at the same time. -/
structure Crew where
  world : World
  /-- The registry in which a thread does its job, and what is left of the job. -/
  doing : ThreadId → Option (RegistryId × Course Unit)
  /-- The name of the namespace that a thread has gone to last in a registry; before it goes anywhere, the name
  of the one that it was in when the registry was copied, or of the core namespace. -/
  standing : Site → String

/-- What happens next. -/
inductive Crew.Turn where
  /-- A thread makes a registry, with or without the standard library. -/
  | create (t : ThreadId) (expansionLimit : Nat) (library : Bool)
  /-- A thread copies a registry. -/
  | copy (t : ThreadId) (r : RegistryId)
  /-- A thread that does nothing else begins with a job, in the course that it will take. -/
  | begin (t : ThreadId) (r : RegistryId) (job : Job) (course : Course Unit)
  /-- A thread does its next deed, or ends its job. -/
  | go (t : ThreadId)

/-- The thread whose turn it is. -/
def Crew.Turn.thread : Turn → ThreadId
  | create t _ _ | copy t _ | begin t _ _ _ | go t => t

namespace Crew

/-- Before any thread does anything. -/
def start : Crew := ⟨World.empty, fun _ => none, fun _ => coreName⟩

/-- What a thread does from now on. -/
def assign (m : Crew) (t : ThreadId) (task : Option (RegistryId × Course Unit)) : Crew :=
  { m with doing := Function.update m.doing t task }

@[simp] theorem world_assign (m : Crew) (t : ThreadId) (task : Option (RegistryId × Course Unit)) :
    (m.assign t task).world = m.world := rfl

/-- A deed has been done. -/
def deed (m : Crew) (here : Site) (d : Deed) : Crew :=
  { m with
    world := d.effect here m.world
    standing := fun there =>
      if there.registry = here.registry ∧ there.thread = here.thread then
        d.destination.getD (m.standing there)
      else m.standing there }

/-- The world has got one more registry, in which threads begin in the namespaces of these names. -/
def join (m : Crew) (w : World) (places : ThreadId → String) : Crew :=
  { m with
    world := w
    standing := fun there =>
      if there.registry = m.world.registries.size then places there.thread else m.standing there }

/-- What the threads have done after a turn. Only registries that have been made are copied and worked in. -/
def after (m : Crew) : Turn → Crew
  | .create t limit library =>
    let w := (m.world.newRegistry t limit).2
    m.join (if library then w.addStandardLibrary m.world.registries.size else w) fun _ => coreName
  | .copy _ r =>
    if r < m.world.registries.size then
      m.join (m.world.copyRegistry r).2 fun t => m.world.placeName ⟨r, t⟩
    else m
  | .begin t r _ course =>
    match m.doing t with
    | none => if r < m.world.registries.size then m.assign t (some (r, course)) else m
    | some _ => m
  | .go t =>
    match m.doing t with
    | none => m
    | some (r, .step d next) => (m.deed ⟨r, t⟩ d).assign t (some (r, next m.world))
    | some (_, .done _) => m.assign t none
    | some (_, .halt _) => m.assign t none

/-! What a turn comes to, and what is written down after it. -/

section

variable {m : Crew} {here there : Site} {r : RegistryId} {t : ThreadId} {d : Deed}

theorem standing_deed_of_none (hgo : d.destination = none) :
    (m.deed here d).standing there = m.standing there := by
  unfold deed
  dsimp only
  rw [hgo, Option.getD_none, ite_self]

theorem standing_deed_self {name : String} (hgo : d.destination = some name) :
    (m.deed here d).standing here = name := by
  unfold deed
  dsimp only
  rw [if_pos ⟨rfl, rfl⟩, hgo, Option.getD_some]

theorem standing_deed_of_ne (hne : there ≠ here) : (m.deed here d).standing there = m.standing there := by
  have hsite : ¬ (there.registry = here.registry ∧ there.thread = here.thread) := fun heq => by
    obtain ⟨r, t⟩ := here
    obtain ⟨rfl, rfl⟩ := heq
    exact hne rfl
  unfold deed
  dsimp only
  rw [if_neg hsite]

theorem standing_join_self {w : World} {places : ThreadId → String} :
    (m.join w places).standing ⟨m.world.registries.size, t⟩ = places t := by
  unfold join
  dsimp only
  rw [if_pos rfl]

theorem standing_join_of_lt {w : World} {places : ThreadId → String}
    (hr : there.registry < m.world.registries.size) :
    (m.join w places).standing there = m.standing there := by
  unfold join
  dsimp only
  rw [if_neg (Nat.ne_of_lt hr)]

theorem after_begin {job : Job} {course : Course Unit} (hr : r < m.world.registries.size)
    (hidle : m.doing t = none) : m.after (.begin t r job course) = m.assign t (some (r, course)) := by
  unfold after
  dsimp only
  rw [hidle]
  dsimp only
  rw [if_pos hr]

theorem after_go {next : World → Course Unit} (hdoing : m.doing t = some (r, .step d next)) :
    m.after (.go t) = (m.deed ⟨r, t⟩ d).assign t (some (r, next m.world)) := by
  unfold after
  dsimp only
  rw [hdoing]

end

/-- The turn may come: a thread that begins with a job takes a course that does the job, and no thread binds a
var by which some thread has its current namespace, but for going to a namespace. -/
def Allows (m : Crew) : Turn → Prop
  | .begin t r job course => course.Does ⟨r, t⟩ (job.action ⟨r, t⟩)
  | .go t => ∀ r v x next, m.doing t = some (r, .step (.setRoot v x) next) → ¬ m.world.IsCurrent v
  | _ => True

/-- What may come about by turns of threads. -/
inductive Arises : Crew → Prop
  | start : Arises start
  | after {m : Crew} (h : Arises m) (turn : Turn) (hturn : m.Allows turn) : Arises (m.after turn)

end Crew

/-! ## Where the threads are -/

variable {w u : World} {here : Site} {m : Crew}

/-- A deed that does not go to a namespace, nor binds a var by which some thread has its current namespace,
leaves all threads where they are. -/
theorem World.Settled.undisturbed_effect (h : w.Settled) (here : Site) {d : Deed}
    (hset : ∀ v x, d = .setRoot v x → ¬ w.IsCurrent v) (hgo : d.destination = none) :
    w.Undisturbed (d.effect here w) := by
  cases d with
  | look => exact h.undisturbed_self
  | newObject => exact h.undisturbed_of_unchanged rfl rfl rfl
  | uniqueName stem => exact h.undisturbed_of_unchanged rfl rfl rfl
  | print text => exact h.undisturbed_of_unchanged rfl rfl rfl
  | internKeyword s => exact h.undisturbed_internKeyword here.registry s
  | readKeyword s auto => exact h.undisturbed_readKeyword here s auto
  | internNamespace name => exact h.undisturbed_internNamespace here.registry name
  | internVar s => exact h.undisturbed_internVar here.registry s
  | threadState => exact h.undisturbed_threadState here
  | switchNamespace name => cases hgo
  | newFunction c => exact h.undisturbed_of_unchanged rfl rfl rfl
  | setRoot v x => exact h.undisturbed_setRoot (hset v x rfl) x
  | setMetadata v x => exact h.undisturbed_setMetadata v x

namespace Crew

/-- The thread is in the namespace that stands in the registry under the name that has been written down. -/
def At (m : Crew) (here : Site) : Prop :=
  ∃ n, (m.world.currentNamespace here).1 = .ok n ∧
    m.world.findNamespace? here.registry (m.standing here) = some n

/-- All threads are where it has been written down, in all registries. -/
structure Placed (m : Crew) : Prop where
  settled : m.world.Settled
  busy : ∀ {t r c}, m.doing t = some (r, c) → r < m.world.registries.size
  places : ∀ there, there.registry < m.world.registries.size → m.At there

/-- A turn of the thread: no other thread is anywhere else after it. -/
structure Spares (m m' : Crew) (t : ThreadId) : Prop where
  placed : m'.Placed
  others : ∀ there, there.registry < m.world.registries.size → there.thread ≠ t →
    (m'.world.currentNamespace there).1 = (m.world.currentNamespace there).1

theorem placed_start : start.Placed where
  settled :=
    { World.registered_empty with
      core := fun hr => absurd hr (Nat.not_lt_zero _)
      currents := fun r t state hmem => by cases hmem }
  busy hdoing := by cases hdoing
  places there hr := absurd hr (Nat.not_lt_zero _)

namespace Placed

variable (h : m.Placed)
include h

theorem spares_self (t : ThreadId) : m.Spares m t := ⟨h, fun _ _ _ => rfl⟩

/-- What is under a name that has been written down is kept. -/
theorem at_of_same {m' : Crew} {there : Site} (hr : there.registry < m.world.registries.size)
    (hk : m.world.Keeps m'.world)
    (hplace : (m'.world.currentNamespace there).1 = (m.world.currentNamespace there).1)
    (hstanding : m'.standing there = m.standing there) : m'.At there := by
  obtain ⟨n, hn, hfound⟩ := h.places there hr
  exact ⟨n, hplace.trans hn, hstanding ▸ hk.find hfound⟩

theorem assign {t : ThreadId} {task : Option (RegistryId × Course Unit)}
    (htask : ∀ r c, task = some (r, c) → r < m.world.registries.size) : (m.assign t task).Placed where
  settled := h.settled
  busy {t' r c} hdoing := by
    unfold Crew.assign at hdoing
    dsimp only at hdoing
    rw [Function.update_apply] at hdoing
    split at hdoing
    · exact htask r c hdoing
    · exact h.busy hdoing
  places := h.places

theorem idle (t : ThreadId) : (m.assign t none).Placed := by
  refine h.assign fun r c htask => ?_
  cases htask

/-- A deed that goes nowhere moves nobody. -/
theorem deed_of_none {r : RegistryId} {t : ThreadId} {d : Deed} (hgo : d.destination = none)
    (hset : ∀ v x, d = .setRoot v x → ¬ m.world.IsCurrent v) : m.Spares (m.deed ⟨r, t⟩ d) t := by
  have hu := h.settled.undisturbed_effect ⟨r, t⟩ hset hgo
  refine ⟨⟨h.settled.of_undisturbed hu, fun hdoing => hu.size.symm ▸ h.busy hdoing, fun there hthere => ?_⟩,
    fun there hthere _ => hu.places there hthere⟩
  have hthere : there.registry < m.world.registries.size := hu.size ▸ hthere
  exact h.at_of_same hthere hu.keeps (hu.places there hthere) (standing_deed_of_none hgo)

/-- Going to a namespace moves the thread that does it there, and this is written down. -/
theorem deed_switchNamespace {r : RegistryId} (hr : r < m.world.registries.size) (t : ThreadId)
    (name : String) : m.Spares (m.deed ⟨r, t⟩ (.switchNamespace name)) t := by
  have hu : m.world.Moved (m.world.switchNamespace ⟨r, t⟩ name).2 ⟨r, t⟩ name :=
    h.settled.switchNamespace hr name
  refine ⟨⟨h.settled.of_moved hu, fun hdoing => hu.size.symm ▸ h.busy hdoing, fun there hthere => ?_⟩,
    fun there hthere hne => hu.others there (fun heq => hne (heq ▸ rfl)) hthere⟩
  by_cases heq : there = ⟨r, t⟩
  · obtain ⟨n, hn, hfound⟩ := hu.there
    subst heq
    refine ⟨n, hn, ?_⟩
    rw [standing_deed_self rfl]
    exact hfound
  · have hthere : there.registry < m.world.registries.size := hu.size ▸ hthere
    exact h.at_of_same hthere hu.keeps (hu.others there heq hthere) (standing_deed_of_ne heq)

/-- A deed moves the thread that does it at most, and it moves it where it is written down. -/
theorem deed {r : RegistryId} {t : ThreadId} {d : Deed} (hr : r < m.world.registries.size)
    (hset : ∀ v x, d = .setRoot v x → ¬ m.world.IsCurrent v) : m.Spares (m.deed ⟨r, t⟩ d) t := by
  cases hgo : d.destination with
  | none => exact h.deed_of_none hgo hset
  | some name =>
    obtain rfl : d = .switchNamespace name := by
      cases d <;> cases hgo
      rfl
    exact h.deed_switchNamespace hr t name

/-- A registry that joins is the only one in which threads begin. -/
theorem join {places : ThreadId → String} (hu : m.world.Joined u places) (t : ThreadId) :
    m.Spares (m.join u places) t := by
  refine ⟨⟨h.settled.of_joined hu, fun hdoing => ?_, fun there hthere => ?_⟩,
    fun there hthere _ => hu.others there hthere⟩
  · show _ < u.registries.size
    rw [hu.size]
    exact Nat.lt_succ_of_lt (h.busy hdoing)
  · -- The new registry has the number that was free, so the site is in it or was there before.
    have hthere : there.registry < u.registries.size := hthere
    rw [hu.size] at hthere
    obtain hlt | heq := Nat.lt_succ_iff_lt_or_eq.mp hthere
    · exact h.at_of_same hlt hu.keeps (hu.others there hlt) (standing_join_of_lt hlt)
    · obtain ⟨r, t'⟩ := there
      obtain rfl : r = m.world.registries.size := heq
      obtain ⟨n, hn, hfound⟩ := hu.there t'
      refine ⟨n, hn, ?_⟩
      rw [standing_join_self]
      exact hfound

theorem create (t : ThreadId) (limit : Nat) (library : Bool) :
    m.Spares (m.after (.create t limit library)) t := by
  cases library with
  | true => exact h.join (h.settled.newRegistry_library t limit) t
  | false => exact h.join (h.settled.newRegistry t limit) t

theorem copy (t : ThreadId) (r : RegistryId) : m.Spares (m.after (.copy t r)) t := by
  unfold Crew.after
  dsimp only
  split
  · rename_i hr
    -- What is written down for the copy is where the threads are, so it is what was written down before.
    refine h.join (h.settled.copyRegistry hr fun t' => ?_) t
    obtain ⟨n, hn, hfound⟩ := h.places ⟨r, t'⟩ hr
    refine ⟨n, hn, ?_⟩
    have hname : n.name = m.standing ⟨r, t'⟩ :=
      (h.settled.named r).namespace_name (mem_of_lookup hfound)
    unfold World.placeName
    rw [hn]
    dsimp only
    rw [hname]
    exact hfound
  · exact h.spares_self t

theorem begins (t : ThreadId) (r : RegistryId) (job : Job) (course : Course Unit) :
    m.Spares (m.after (.begin t r job course)) t := by
  unfold Crew.after
  dsimp only
  split
  · split
    · rename_i hr
      refine ⟨h.assign fun r' c htask => ?_, fun _ _ _ => rfl⟩
      obtain rfl := (Prod.mk.inj (Option.some.inj htask)).1
      exact hr
    · exact h.spares_self t
  · exact h.spares_self t

theorem go {t : ThreadId} (hturn : m.Allows (.go t)) : m.Spares (m.after (.go t)) t := by
  unfold Crew.after
  dsimp only
  split
  · exact h.spares_self t
  · rename_i r d next hdoing
    have hr := h.busy hdoing
    -- The deed is done first, and then the thread is given what is left.
    obtain ⟨hplaced, hothers⟩ := h.deed (t := t) hr fun v x heq => hturn r v x next (heq ▸ hdoing)
    refine ⟨hplaced.assign fun r' c htask => ?_, hothers⟩
    obtain rfl := (Prod.mk.inj (Option.some.inj htask)).1
    exact hplaced.busy hdoing
  · exact ⟨h.idle t, fun _ _ _ => rfl⟩
  · exact ⟨h.idle t, fun _ _ _ => rfl⟩

/-- No turn moves another thread than the one whose turn it is, and where it moves that one is written down. -/
theorem after {turn : Turn} (hturn : m.Allows turn) : m.Spares (m.after turn) turn.thread := by
  cases turn with
  | create t limit library => exact h.create t limit library
  | copy t r => exact h.copy t r
  | begin t r job course => exact h.begins t r job course
  | go t => exact h.go hturn

end Placed

/-- Whatever the threads have done, they are where it has been written down: by induction on the turns. -/
theorem Arises.placed (h : m.Arises) : m.Placed := by
  induction h with
  | start => exact placed_start
  | after _ turn hturn ih => exact (ih.after hturn).placed

/-- Turns of one thread, with nothing in between. -/
def goes (t : ThreadId) : Nat → Crew → Crew
  | 0, m => m
  | k + 1, m => goes t k (m.after (.go t))

/-- A thread that is alone at work comes to what the action comes to, and is idle then: by induction on what is
left of its course, for any world that it is in by then. -/
theorem goes_run {r : RegistryId} {t : ThreadId} {c : Course Unit} (hdoing : m.doing t = some (r, c)) :
    ∃ k, (goes t k m).world = (c.run ⟨r, t⟩).after m.world ∧ (goes t k m).doing t = none := by
  induction c generalizing m with
  | done x =>
    refine ⟨1, ?_⟩
    unfold goes Crew.after
    dsimp only
    rw [hdoing]
    exact ⟨rfl, Function.update_self ..⟩
  | halt x =>
    refine ⟨1, ?_⟩
    unfold goes Crew.after
    dsimp only
    rw [hdoing]
    exact ⟨rfl, Function.update_self ..⟩
  | step d next ih =>
    have hgo := after_go hdoing
    have hnext : (m.after (.go t)).doing t = some (r, next m.world) := by
      rw [hgo]
      exact Function.update_self ..
    obtain ⟨k, hworld, hidle⟩ := ih m.world hnext
    refine ⟨k + 1, ?_, hidle⟩
    show (goes t k (m.after (.go t))).world = _
    rw [hworld, hgo]
    rfl

/-- A thread that begins with a job and is alone at work does what the event does. -/
theorem goes_begin {r : RegistryId} {t : ThreadId} {job : Job} {course : Course Unit}
    (hr : r < m.world.registries.size) (hidle : m.doing t = none)
    (hcourse : course.Does ⟨r, t⟩ (job.action ⟨r, t⟩)) :
    ∃ k, (goes t k (m.after (.begin t r job course))).world = m.world.after (job.event ⟨r, t⟩) := by
  have hdoing : (m.assign t (some (r, course))).doing t = some (r, course) := Function.update_self ..
  obtain ⟨k, hworld, -⟩ := goes_run hdoing
  refine ⟨k, ?_⟩
  rw [after_begin hr hidle, hworld, world_assign, ← job.after_action]
  unfold Action.after
  rw [hcourse m.world hr]

end Crew

/-! ## Going to a namespace -/

/-- A thread goes to a namespace in three deeds: the namespace is interned, the thread gets its state, and only
then it goes there. -/
def Course.switching (name : String) : Course Unit :=
  .step (.internNamespace name) fun _ => .step .threadState fun _ =>
    .step (.switchNamespace name) fun _ => .done ()

namespace Course

theorem switchNamespace_again (hr : here.registry < w.registries.size) (name : String) :
    ((w.internNamespace here.registry name).2.threadState here).2.switchNamespace here name =
      w.switchNamespace here name := by
  have hfound := find_internNamespace w hr name
  have hr : here.registry < (w.internNamespace here.registry name).2.registries.size := by simpa using hr
  unfold World.switchNamespace
  dsimp only
  generalize (w.internNamespace here.registry name).1 = n at *
  generalize (w.internNamespace here.registry name).2 = u at *
  have hfound := (u.keeps_threadState here).find hfound
  have hstate := u.threadState?_threadState hr
  generalize u.threadState here = made at *
  rw [made.2.internNamespace_of_find _ hfound]
  dsimp only
  have hagain : made.2.threadState here = made := by
    unfold World.threadState
    rw [hstate]
  rw [hagain]

/-- The three deeds switch to the namespace. -/
theorem switching_switchNamespace (here : Site) (name : String) :
    (switching name).Does here ((Job.switchNamespace name).action here) := by
  intro w hr
  show EStateM.Result.ok () (((w.internNamespace here.registry name).2.threadState here).2.switchNamespace
    here name).2 = _
  rw [switchNamespace_again hr]
  rfl

end Course

/-! ## Every thread where it has gone by itself -/

/-- The thread is in the namespace of this name, which stands in the registry, and symbols without a namespace
part are taken to be of that namespace. -/
structure World.StandsIn (w : World) (here : Site) (name : String) : Prop where
  current : ∃ n, (w.currentNamespace here).1 = .ok n ∧ w.findNamespace? here.registry name = some n ∧
    n.name = name
  qualify : ∀ s : Symbol, s.isQualified = false → (w.qualify here s).1 = .ok (s.inNamespace name)

theorem World.StandsIn.of_current {n : Namespace} (hn : (w.currentNamespace here).1 = .ok n)
    (hfound : w.findNamespace? here.registry n.name = some n) : w.StandsIn here n.name := by
  refine ⟨⟨n, hn, hfound, rfl⟩, fun s hs => ?_⟩
  unfold World.qualify
  rw [hs, if_neg Bool.false_ne_true]
  dsimp only
  rw [hn]
  rfl

theorem Crew.Placed.standsIn (h : m.Placed) {there : Site} (hr : there.registry < m.world.registries.size) :
    m.world.StandsIn there (m.standing there) := by
  obtain ⟨n, hn, hfound⟩ := h.places there hr
  have hname : n.name = m.standing there :=
    (h.settled.named there.registry).namespace_name (mem_of_lookup hfound)
  rw [← hname] at hfound ⊢
  exact .of_current hn hfound

/-- The next deed of the course binds a var. -/
def Course.binds {α : Type} : Course α → Bool
  | step (.setRoot _ _) _ => true
  | _ => false

namespace Crew

theorem allows_go {t : ThreadId} (hbinds : (m.doing t).any (·.2.binds) = false) : m.Allows (.go t) := by
  intro r v x next hdoing
  rw [hdoing] at hbinds
  cases hbinds

theorem Arises.go (h : m.Arises) {t : ThreadId} (hbinds : (m.doing t).any (·.2.binds) = false) :
    (m.after (.go t)).Arises :=
  h.after _ (allows_go hbinds)

theorem Arises.begin (h : m.Arises) {t : ThreadId} {r : RegistryId} {job : Job} {course : Course Unit}
    (hcourse : course.Does ⟨r, t⟩ (job.action ⟨r, t⟩)) : (m.after (.begin t r job course)).Arises :=
  h.after _ hcourse

end Crew

end SmallLisp
