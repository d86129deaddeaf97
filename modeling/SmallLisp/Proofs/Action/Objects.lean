import SmallLisp.Proofs.World.Objects
import SmallLisp.Scope

/-!
# Computations that make objects

A computation that begins with some objects may make further ones, and must leave the world with all of them,
whether it has a value or not (`Makes`). What is said of its value may rely on the objects that there are in the
end. The rules go by the way a computation is composed; what has been among the objects before is among them later.
-/

namespace SmallLisp

variable {σ α β : Type} {world : σ → World} {os more : Objects} {P : Objects → α → Prop} {Q : Objects → β → Prop}

/-- How a computation ends that has begun with these objects: there are these and perhaps further ones, and a value
is as `P` says of them. -/
inductive EndsWith (world : σ → World) (os : Objects) (P : Objects → α → Prop) :
    EStateM.Result Halt σ α → Prop
  | ok {more : Objects} {x : α} {s : σ} (hmore : os <+: more) (hs : (world s).Consists more) (hx : P more x) :
    EndsWith world os P (.ok x s)
  | error {more : Objects} {e : Halt} {s : σ} (hmore : os <+: more) (hs : (world s).Consists more) :
    EndsWith world os P (.error e s)

/-- From worlds of these objects, the computation ends so. -/
def Makes (world : σ → World) (os : Objects) (P : Objects → α → Prop) (a : EStateM Halt σ α) : Prop :=
  ∀ s, (world s).Consists os → EndsWith world os P (a s)

/-- The computation begins with more objects. -/
theorem EndsWith.of_extended {r : EStateM.Result Halt σ α} (h : EndsWith world more P r) (hmore : os <+: more) :
    EndsWith world os P r := by
  cases h with
  | ok hlater hs hx => exact .ok (hmore.trans hlater) hs hx
  | error hlater hs => exact .error (hmore.trans hlater) hs

namespace Makes

theorem mono {P' : Objects → α → Prop} {a : EStateM Halt σ α} (h : Makes world os P a)
    (hp : ∀ more x, os <+: more → P more x → P' more x) : Makes world os P' a := by
  intro s hs
  have ha := h s hs
  generalize a s = r at *
  cases ha with
  | ok hmore ht hx => exact .ok hmore ht (hp _ _ hmore hx)
  | error hmore ht => exact .error hmore ht

theorem pure {x : α} (h : P os x) : Makes world os P (Pure.pure x) := fun _ hs => .ok List.prefix_rfl hs h

theorem throw {e : Halt} : Makes world os P (throw e) := fun _ hs => .error List.prefix_rfl hs

theorem bind {a : EStateM Halt σ α} {f : α → EStateM Halt σ β} (h : Makes world os P a)
    (hf : ∀ more x, os <+: more → P more x → Makes world more Q (f x)) : Makes world os Q (a >>= f) := by
  intro s hs
  show EndsWith world os Q (EStateM.bind a f s)
  unfold EStateM.bind
  have ha := h s hs
  generalize a s = r at *
  cases ha with
  | ok hmore ht hx => exact (hf _ _ hmore hx _ ht).of_extended hmore
  | error hmore ht => exact .error hmore ht

theorem map {a : EStateM Halt σ α} {f : α → β} (h : Makes world os (fun more x => Q more (f x)) a) :
    Makes world os Q (f <$> a) := by
  rw [← bind_pure_comp]
  exact h.bind fun _ _ _ hx => pure hx

theorem forEach {f : α → EStateM Halt σ β} {as : List α} (hQ : ∀ {os more b}, Q os b → os <+: more → Q more b)
    (h : ∀ a ∈ as, ∀ more, os <+: more → Makes world more Q (f a)) :
    Makes world os (fun more bs => ∀ b ∈ bs, Q more b) (Action.forEach f as) := by
  induction as generalizing os with
  | nil => exact pure nofun
  | cons a as ih =>
    -- What is said of the first value has to be true of the objects that the others make too.
    refine (h a (List.mem_cons_self ..) os List.prefix_rfl).bind fun more b hmore hb => ?_
    have hrest := ih fun a ha later hlater => h a (List.mem_cons_of_mem _ ha) later (hmore.trans hlater)
    refine hrest.bind fun later bs hlater hbs => ?_
    exact pure (List.forall_mem_cons.mpr ⟨hQ hb hlater, hbs⟩)

/-! ## Elementary actions -/

/-- What code gets hold of is among the objects. -/
abbrev Gives (a : Action Value) (os : Objects) : Prop := Makes id os (fun more v => v.Among more) a

theorem fail {e : Error} : Makes id os P (Action.fail e : Action α) := throw

theorem failEval {fault : EvalFault} : Makes id os P (Action.failEval fault : Action α) := throw

theorem failAnalysis {fault : AnalysisFault} : Makes id os P (Action.failAnalysis fault : Action α) := throw

theorem view {f : World → α} (h : ∀ w : World, w.Consists os → P os (f w)) :
    Makes id os P (Action.view f) :=
  fun w hw => .ok List.prefix_rfl hw (h w hw)

/-- Something that is not about objects is looked up. -/
theorem look (f : World → α) : Makes id os (fun _ _ => True) (Action.view f) := view fun _ _ => trivial

theorem change {f : World → World} (h : ∀ w : World, w.Consists os → (f w).Consists os) :
    Makes id os (fun _ _ => True) (Action.change f) :=
  fun w hw => .ok List.prefix_rfl (h w hw) trivial

theorem update {f : World → α × World} (h : ∀ w : World, w.Consists os → (f w).2.Consists os) :
    Makes id os (fun _ _ => True) (Action.update f) :=
  fun w hw => .ok List.prefix_rfl (h w hw) trivial

theorem attempt {ε : Type} {wrap : ε → Error} {f : World → Except ε α × World}
    (h : ∀ w : World, w.Consists os → (f w).2.Consists os) :
    Makes id os (fun _ _ => True) (Action.attempt wrap f) := by
  intro w hw
  have hf := h w hw
  unfold Action.attempt
  split
  · rename_i heq
    rw [heq] at hf
    exact .ok List.prefix_rfl hf trivial
  · rename_i heq
    rw [heq] at hf
    exact .error List.prefix_rfl hf

/-- An object is made of what is among the objects before it. -/
theorem object {f : ObjectId → Value} (hmap : ∀ n id entries, f n = .map id entries → Value.DistinctKeys entries)
    (hf : ∀ more id, os <+: more → more[id]? = some (f id) → (f id).Among more) :
    Gives (do return f (← Action.newObject)) os := by
  intro w hw
  obtain ⟨more, hmore, hu, hid⟩ := hw.exists_add (hmap w.newObject.1)
  exact .ok hmore hu (hf more _ hmore hid)

/-- Values that are made one after the other. -/
theorem each {f : α → Action Value} {as : List α} (h : ∀ a ∈ as, ∀ more, os <+: more → Gives (f a) more) :
    Makes id os Value.AllAmong (Action.forEach f as) :=
  forEach (Q := Value.Among) Value.Among.mono h

theorem newList {items : List Value} (h : Value.AllAmong os items) : Gives (Action.newList items) os :=
  object nofun fun _ _ hmore hid => Value.among_list.mpr ⟨hid, h.mono hmore⟩

theorem newVector {items : List Value} (h : Value.AllAmong os items) : Gives (Action.newVector items) os :=
  object nofun fun _ _ hmore hid => Value.among_vector.mpr ⟨hid, h.mono hmore⟩

theorem newMap {entries : List (Value × Value)} (hkeys : Value.DistinctKeys entries)
    (h : Value.EntriesAmong os entries) : Gives (Action.newMap entries) os :=
  object (by rintro _ _ _ ⟨⟩; exact hkeys) fun _ _ hmore hid => Value.among_map.mpr ⟨hid, h.mono hmore⟩

theorem newString (text : String) : Gives (Action.newString text) os :=
  object nofun fun _ _ _ hid => Value.among_str.mpr hid

/-- A value that is no object. -/
theorem plain {v : Value} (h : v.objectId? = none) : Gives (Pure.pure v) os := pure (Value.among_of_noObject h)

theorem root (v : Var) :
    Makes id os (fun more root => ∀ x, root = some x → x.Among more) (Action.view (·.root v)) :=
  view fun _ hw _ hx => hw.root hx

/-! ## Analyses -/

theorem act {a : Action α} (h : Makes id os P a) : Makes Desk.world os P (Analysis.act a) := by
  rintro ⟨w, S⟩ hw
  have ha := h w hw
  unfold Analysis.act
  dsimp only
  generalize a w = r at *
  cases ha with
  | ok hmore hu hx => exact .ok hmore hu hx
  | error hmore hu => exact .error hmore hu

theorem failForm {fault : AnalysisFault} : Makes Desk.world os P (Analysis.fail fault : Analysis α) :=
  act failAnalysis

theorem isLocal (s : Symbol) : Makes Desk.world os (fun _ _ => True) (Analysis.isLocal s) :=
  fun _ hd => .ok List.prefix_rfl hd trivial

theorem declare (s : Symbol) : Makes Desk.world os (fun _ _ => True) (Analysis.declare s) := by
  rintro ⟨w, S⟩ hw
  cases S with
  | nil => exact .ok List.prefix_rfl hw trivial
  | cons names outer => exact .ok List.prefix_rfl hw trivial

theorem within {names : Scope} {a : Analysis α} (h : Makes Desk.world os P a) :
    Makes Desk.world os P (Analysis.within names a) := by
  rintro ⟨w, S⟩ hw
  have ha := h ⟨w, names :: S⟩ hw
  unfold Analysis.within
  dsimp only
  generalize a ⟨w, names :: S⟩ = r at *
  cases ha with
  | ok hmore hd hx => exact .ok hmore hd hx
  | error hmore hd => exact .error hmore hd

end Makes

end SmallLisp
