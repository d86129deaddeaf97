import SmallLisp.Evaluation
import SmallLisp.Proofs.Value.References

/-!
# What expressions take and refer to

An expression takes local names from the scope around it (`Expr.freeLocals`) and refers to vars,
functions and namespaces, which it gets hold of when it is evaluated, or when functions made by it are
called (`Expr.refs`). `Expr.Sound` bounds both; the lemmas after it say what it means for each kind of
expression. A function is sound when its body is sound in the scope of a call: the names that the
function binds and those around it.
-/

namespace SmallLisp

/-- The names that a function binds. -/
def Signature.names (s : Signature) : List Symbol := s.rest.toList ++ s.params ++ s.name.toList

namespace Expr

mutual

/-- The local names that an expression takes from the scope around it. -/
def freeLocals : Expr → List Symbol
  | const _ | root _ | theVar _ => []
  | localName s => [s]
  | define _ value _ => freeLocalsIf value
  | branch test yes no => test.freeLocals ++ yes.freeLocals ++ freeLocalsIf no
  | sequence exprs => freeLocalsAll exprs
  | bind bindings body => freeLocalsBound body.freeLocals bindings
  | function s body => body.freeLocals.filter (· ∉ s.names)
  | call callee args => callee.freeLocals ++ freeLocalsAll args
  | vector items => freeLocalsAll items
  | map entries => freeLocalsEntries entries

/-- The local names that an optional expression takes. -/
def freeLocalsIf : Option Expr → List Symbol
  | none => []
  | some e => e.freeLocals

/-- The local names that some of the expressions take. -/
def freeLocalsAll : List Expr → List Symbol
  | [] => []
  | e :: es => e.freeLocals ++ freeLocalsAll es

/-- The local names that bindings take, and a body inside them that takes the given ones. -/
def freeLocalsBound (inner : List Symbol) : List (Symbol × Expr) → List Symbol
  | [] => inner
  | (s, e) :: rest => e.freeLocals ++ (freeLocalsBound inner rest).filter (· ≠ s)

/-- The local names that some of the entries take. -/
def freeLocalsEntries : List (Expr × Expr) → List Symbol
  | [] => []
  | (k, v) :: rest => k.freeLocals ++ v.freeLocals ++ freeLocalsEntries rest

end

mutual

/-- What an expression refers to, the bodies of functions included. A var that it defines, it can read as
well; the metadata that it gives to a var are never read out. -/
def refs : Expr → List Ref
  | const value => value.refs
  | root v => [.var v]
  | localName _ => []
  | theVar v => [.var v]
  | define v value _ => .target v :: .var v :: refsIf value
  | branch test yes no => test.refs ++ yes.refs ++ refsIf no
  | sequence exprs => refsAll exprs
  | bind bindings body => refsBound bindings ++ body.refs
  | function _ body => body.refs
  | call callee args => callee.refs ++ refsAll args
  | vector items => refsAll items
  | map entries => refsEntries entries

/-- What an optional expression refers to. -/
def refsIf : Option Expr → List Ref
  | none => []
  | some e => e.refs

/-- What some of the expressions refer to. -/
def refsAll : List Expr → List Ref
  | [] => []
  | e :: es => e.refs ++ refsAll es

/-- What the values of bindings refer to. -/
def refsBound : List (Symbol × Expr) → List Ref
  | [] => []
  | (_, e) :: rest => e.refs ++ refsBound rest

/-- What some of the entries refer to. -/
def refsEntries : List (Expr × Expr) → List Ref
  | [] => []
  | (k, v) :: rest => k.refs ++ v.refs ++ refsEntries rest

end

attribute [grind =] freeLocals freeLocalsIf freeLocalsAll freeLocalsBound freeLocalsEntries refs refsIf refsAll
  refsBound refsEntries

/-- The expression takes only local names of `S` and refers to nothing outside `R`. -/
structure Sound (R : Ref → Prop) (S : Symbol → Prop) (e : Expr) : Prop where
  /-- The local names that it takes. -/
  freeLocals : ∀ s ∈ e.freeLocals, S s
  /-- What it refers to. -/
  refs : ∀ r ∈ e.refs, R r

variable {R : Ref → Prop} {S T : Symbol → Prop}

/-- A larger scope serves as well. -/
theorem Sound.mono {e : Expr} (h : e.Sound R S) (hST : ∀ s, S s → T s) : e.Sound R T :=
  ⟨fun s hs => hST s (h.freeLocals s hs), h.refs⟩

theorem mem_freeLocalsAll {s : Symbol} {es : List Expr} :
    s ∈ freeLocalsAll es ↔ ∃ e ∈ es, s ∈ e.freeLocals := by
  induction es with
  | nil => simp [freeLocalsAll]
  | cons e es ih => simp [freeLocalsAll, ih]

theorem mem_refsAll {r : Ref} {es : List Expr} :
    r ∈ refsAll es ↔ ∃ e ∈ es, r ∈ e.refs := by
  induction es with
  | nil => simp [refsAll]
  | cons e es ih => simp [refsAll, ih]

theorem mem_freeLocalsEntries {s : Symbol} {es : List (Expr × Expr)} :
    s ∈ freeLocalsEntries es ↔ ∃ e ∈ es, s ∈ e.1.freeLocals ∨ s ∈ e.2.freeLocals := by
  induction es with
  | nil => simp [freeLocalsEntries]
  | cons e es ih => simp [freeLocalsEntries, ih, or_assoc]

theorem mem_refsEntries {r : Ref} {es : List (Expr × Expr)} :
    r ∈ refsEntries es ↔ ∃ e ∈ es, r ∈ e.1.refs ∨ r ∈ e.2.refs := by
  induction es with
  | nil => simp [refsEntries]
  | cons e es ih => simp [refsEntries, ih, or_assoc]

theorem mem_freeLocalsIf {s : Symbol} {e : Option Expr} :
    s ∈ freeLocalsIf e ↔ ∃ x ∈ e, s ∈ x.freeLocals := by
  cases e <;> simp [freeLocalsIf]

theorem mem_refsIf {r : Ref} {e : Option Expr} :
    r ∈ refsIf e ↔ ∃ x ∈ e, r ∈ x.refs := by
  cases e <;> simp [refsIf]

/-! ## Soundness of each kind of expression -/

theorem sound_const {value : Value} : (const value).Sound R S ↔ value.Within R :=
  ⟨fun h r hr => h.refs r (by simpa [refs] using hr),
    fun h => ⟨by simp [freeLocals], fun r hr => h r (by simpa [refs] using hr)⟩⟩

theorem sound_root {v : Var} : (root v).Sound R S ↔ R (.var v) :=
  ⟨fun h => h.refs _ (by simp [refs]), fun h => ⟨by simp [freeLocals], by simpa [refs] using h⟩⟩

theorem sound_theVar {v : Var} : (theVar v).Sound R S ↔ R (.var v) :=
  ⟨fun h => h.refs _ (by simp [refs]), fun h => ⟨by simp [freeLocals], by simpa [refs] using h⟩⟩

theorem sound_localName {s : Symbol} : (localName s).Sound R S ↔ S s :=
  ⟨fun h => h.freeLocals s (by simp [Expr.freeLocals]),
    fun h => ⟨by simpa [freeLocals] using h, by simp [refs]⟩⟩

theorem sound_define {v : Var} {value : Option Expr} {metadata : Option Value} :
    (define v value metadata).Sound R S ↔ R (.target v) ∧ R (.var v) ∧ ∀ e ∈ value, e.Sound R S := by
  constructor
  · rintro ⟨hl, hr⟩
    simp only [freeLocals, refs, List.mem_cons, mem_freeLocalsIf, mem_refsIf] at hl hr
    exact ⟨hr _ (.inl rfl), hr _ (.inr (.inl rfl)), fun e he =>
      ⟨fun s hs => hl s ⟨e, he, hs⟩, fun r hmem => hr r (.inr (.inr ⟨e, he, hmem⟩))⟩⟩
  · rintro ⟨htarget, hvar, he⟩
    refine ⟨fun s hs => ?_, fun r hr => ?_⟩
    · obtain ⟨e, h, hs⟩ := mem_freeLocalsIf.mp (by simpa [freeLocals] using hs)
      exact (he e h).freeLocals s hs
    · simp only [refs, List.mem_cons, mem_refsIf] at hr
      obtain rfl | rfl | ⟨e, h, hr⟩ := hr
      · exact htarget
      · exact hvar
      · exact (he e h).refs r hr

/-- What several expressions take and refer to together. -/
theorem sound_all {es : List Expr} :
    ((∀ s ∈ freeLocalsAll es, S s) ∧ ∀ r ∈ refsAll es, R r) ↔ ∀ e ∈ es, e.Sound R S := by
  constructor
  · rintro ⟨hl, hd⟩ e he
    exact ⟨fun s hs => hl s (mem_freeLocalsAll.mpr ⟨e, he, hs⟩),
      fun v hv => hd v (mem_refsAll.mpr ⟨e, he, hv⟩)⟩
  · intro h
    refine ⟨fun s hs => ?_, fun v hv => ?_⟩
    · obtain ⟨e, he, hs⟩ := mem_freeLocalsAll.mp hs
      exact (h e he).freeLocals s hs
    · obtain ⟨e, he, hv⟩ := mem_refsAll.mp hv
      exact (h e he).refs v hv

theorem sound_branch {test yes : Expr} {no : Option Expr} :
    (branch test yes no).Sound R S ↔ test.Sound R S ∧ yes.Sound R S ∧ ∀ e ∈ no, e.Sound R S := by
  constructor
  · rintro ⟨hl, hd⟩
    simp only [freeLocals, refs, List.mem_append, mem_freeLocalsIf,
      mem_refsIf] at hl hd
    exact ⟨⟨fun s hs => hl s (.inl (.inl hs)), fun v hv => hd v (.inl (.inl hv))⟩,
      ⟨fun s hs => hl s (.inl (.inr hs)), fun v hv => hd v (.inl (.inr hv))⟩,
      fun e he => ⟨fun s hs => hl s (.inr ⟨e, he, hs⟩), fun v hv => hd v (.inr ⟨e, he, hv⟩)⟩⟩
  · rintro ⟨ht, hy, hn⟩
    refine ⟨fun s hs => ?_, fun v hv => ?_⟩
    · simp only [freeLocals, List.mem_append, mem_freeLocalsIf] at hs
      obtain (hs | hs) | ⟨e, he, hs⟩ := hs
      · exact ht.freeLocals s hs
      · exact hy.freeLocals s hs
      · exact (hn e he).freeLocals s hs
    · simp only [refs, List.mem_append, mem_refsIf] at hv
      obtain (hv | hv) | ⟨e, he, hv⟩ := hv
      · exact ht.refs v hv
      · exact hy.refs v hv
      · exact (hn e he).refs v hv

theorem sound_sequence {es : List Expr} :
    (sequence es).Sound R S ↔ ∀ e ∈ es, e.Sound R S :=
  ⟨fun h => sound_all.mp ⟨by simpa [freeLocals] using h.freeLocals,
      by simpa [refs] using h.refs⟩,
    fun h => ⟨by simpa [freeLocals] using (sound_all.mpr h).1,
      by simpa [refs] using (sound_all.mpr h).2⟩⟩

theorem sound_vector {es : List Expr} : (vector es).Sound R S ↔ ∀ e ∈ es, e.Sound R S :=
  ⟨fun h => sound_all.mp ⟨by simpa [freeLocals] using h.freeLocals,
      by simpa [refs] using h.refs⟩,
    fun h => ⟨by simpa [freeLocals] using (sound_all.mpr h).1,
      by simpa [refs] using (sound_all.mpr h).2⟩⟩

theorem sound_call {callee : Expr} {args : List Expr} :
    (call callee args).Sound R S ↔ callee.Sound R S ∧ ∀ e ∈ args, e.Sound R S := by
  constructor
  · rintro ⟨hl, hd⟩
    simp only [freeLocals, refs, List.mem_append] at hl hd
    exact ⟨⟨fun s hs => hl s (.inl hs), fun v hv => hd v (.inl hv)⟩,
      sound_all.mp ⟨fun s hs => hl s (.inr hs), fun v hv => hd v (.inr hv)⟩⟩
  · rintro ⟨hc, ha⟩
    obtain ⟨hl, hd⟩ := sound_all.mpr ha
    refine ⟨fun s hs => ?_, fun v hv => ?_⟩
    · simp only [freeLocals, List.mem_append] at hs
      exact hs.elim (hc.freeLocals s) (hl s)
    · simp only [refs, List.mem_append] at hv
      exact hv.elim (hc.refs v) (hd v)

theorem sound_map {entries : List (Expr × Expr)} :
    (map entries).Sound R S ↔ ∀ e ∈ entries, e.1.Sound R S ∧ e.2.Sound R S := by
  constructor
  · rintro ⟨hl, hd⟩ e he
    simp only [freeLocals, refs, mem_freeLocalsEntries, mem_refsEntries] at hl hd
    exact ⟨⟨fun s hs => hl s ⟨e, he, .inl hs⟩, fun v hv => hd v ⟨e, he, .inl hv⟩⟩,
      ⟨fun s hs => hl s ⟨e, he, .inr hs⟩, fun v hv => hd v ⟨e, he, .inr hv⟩⟩⟩
  · intro h
    refine ⟨fun s hs => ?_, fun v hv => ?_⟩
    · obtain ⟨e, he, hs⟩ := mem_freeLocalsEntries.mp (by simpa [freeLocals] using hs)
      exact hs.elim ((h e he).1.freeLocals s) ((h e he).2.freeLocals s)
    · obtain ⟨e, he, hv⟩ := mem_refsEntries.mp (by simpa [refs] using hv)
      exact hv.elim ((h e he).1.refs v) ((h e he).2.refs v)

theorem sound_function {signature : Signature} {body : Expr} :
    (function signature body).Sound R S ↔ body.Sound R fun s => S s ∨ s ∈ signature.names := by
  constructor
  · rintro ⟨hl, hd⟩
    simp only [freeLocals, refs, List.mem_filter, decide_not, Bool.not_eq_true',
      decide_eq_false_iff_not] at hl hd
    exact ⟨fun s hs => Decidable.or_iff_not_imp_right.mpr fun hn => hl s ⟨hs, hn⟩, hd⟩
  · intro h
    refine ⟨fun s hs => ?_, by simpa [refs] using h.refs⟩
    obtain ⟨hs, hn⟩ := List.mem_filter.mp (by simpa only [freeLocals] using hs)
    exact (h.freeLocals s hs).resolve_right (by simpa using hn)

theorem sound_bind_nil {body : Expr} : (bind [] body).Sound R S ↔ body.Sound R S :=
  ⟨fun h => ⟨by simpa [freeLocals, freeLocalsBound] using h.freeLocals,
      by simpa [refs, refsBound] using h.refs⟩,
    fun h => ⟨by simpa [freeLocals, freeLocalsBound] using h.freeLocals,
      by simpa [refs, refsBound] using h.refs⟩⟩

/-- A binding stands in the scope around it, and what comes after it in that scope and its name. -/
theorem sound_bind_cons {name : Symbol} {init body : Expr} {rest : List (Symbol × Expr)} :
    (bind ((name, init) :: rest) body).Sound R S ↔
      init.Sound R S ∧ (bind rest body).Sound R fun s => S s ∨ s = name := by
  constructor
  · rintro ⟨hl, hd⟩
    simp only [freeLocals, freeLocalsBound, List.mem_append, List.mem_filter, decide_not,
      Bool.not_eq_true', decide_eq_false_iff_not] at hl
    simp only [refs, refsBound, List.mem_append] at hd
    refine ⟨⟨fun s hs => hl s (.inl hs), fun v hv => hd v (.inl (.inl hv))⟩, fun s hs => ?_,
      fun v hv => ?_⟩
    · exact Decidable.or_iff_not_imp_right.mpr fun hn => hl s (.inr ⟨hs, hn⟩)
    · simp only [refs, List.mem_append] at hv
      exact hv.elim (fun hv => hd v (.inl (.inr hv))) fun hv => hd v (.inr hv)
  · rintro ⟨hi, hb⟩
    refine ⟨fun s hs => ?_, fun v hv => ?_⟩
    · simp only [freeLocals, freeLocalsBound, List.mem_append, List.mem_filter] at hs
      obtain hs | ⟨hs, hn⟩ := hs
      · exact hi.freeLocals s hs
      · exact (hb.freeLocals s hs).resolve_right (by simpa using hn)
    · simp only [refs, refsBound, List.mem_append] at hv
      obtain (hv | hv) | hv := hv
      · exact hi.refs v hv
      · exact hb.refs v (by simp [refs, hv])
      · exact hb.refs v (by simp [refs, hv])

/-- The expression refers to nothing outside `R` and, if `strict`, takes local names of `names` alone. -/
def SoundIn (strict : Prop) (R : Ref → Prop) (names : List Symbol) (e : Expr) : Prop :=
  e.Sound R fun s => strict → s ∈ names

variable {strict : Prop} {names : List Symbol}

theorem SoundIn.mono {more : List Symbol} {e : Expr} (h : e.SoundIn strict R names)
    (hm : names ⊆ more) : e.SoundIn strict R more :=
  Sound.mono h fun _ hs hsc => hm (hs hsc)

theorem soundIn_function {signature : Signature} {body : Expr} :
    (function signature body).SoundIn strict R names ↔
      body.SoundIn strict R (signature.names ++ names) := by
  unfold SoundIn
  rw [sound_function]
  by_cases hs : strict <;> simp [hs, or_comm]

theorem soundIn_bind_cons {name : Symbol} {init body : Expr} {rest : List (Symbol × Expr)} :
    (bind ((name, init) :: rest) body).SoundIn strict R names ↔
      init.SoundIn strict R names ∧ (bind rest body).SoundIn strict R (name :: names) := by
  unfold SoundIn
  rw [sound_bind_cons]
  by_cases hs : strict <;> simp [hs, or_comm]

end Expr

/-- The names in scope in the body of a closure. -/
def Closure.names (c : Closure) : List Symbol := c.signature.names ++ c.locals.map Prod.fst

/-- The values of the local names refer to nothing outside `R`. -/
def Locals.Within (R : Ref → Prop) (locals : Locals) : Prop := ∀ l ∈ locals, l.2.Within R

/-- The body of a closure is sound in the scope of a call, and the scope that the closure was made in
refers to nothing outside `R`. -/
structure Closure.Covered (strict : Prop) (R : Ref → Prop) (c : Closure) : Prop where
  /-- The body in the scope of a call. -/
  body : c.body.SoundIn strict R c.names
  /-- The scope around the function. -/
  locals : c.locals.Within R

/-- Every closure is covered where nothing is asked. -/
theorem Closure.covered_free (c : Closure) : c.Covered False fun _ => True :=
  ⟨⟨fun _ _ => False.elim, fun _ _ => trivial⟩, fun _ _ _ _ => trivial⟩

end SmallLisp
