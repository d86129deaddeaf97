import SmallLisp.CommandLine
import SmallLisp.Proofs.Action.Run

/-!
# Expressions on the command line

A command line is a row of parts, each of one or two words (`Part`): expressions in two spellings, other options,
and perhaps a file. Options are looked for one kind after the other, and a part is found by its first word, because
no other part has this word (`Free`). So what is taken out of the words is a part, and the words of the others are left,
in their order (`takeOption_words`, `erase_words`, `takeEach_words`).

All expressions of the short spelling come before those of the long one (`parse_words`). They are evaluated as they
stand on the command line where no short spelling stands behind a long one; where one does, the order is another one,
unless the same text is given twice (`evaluates_given`, `not_keepsOrder`).
-/

namespace SmallLisp.Options

/-- What a part of a command line is. -/
inductive Kind where
  /-- An expression, with the short spelling of its option. -/
  | short
  /-- An expression, with the long spelling of its option. -/
  | long
  | prelude | noPrelude | limit | dump | file
deriving DecidableEq

/-- The word that says of what kind a part is. The file has none. -/
def Kind.spelling? : Kind → Option String
  | short => some "-e"
  | long => some "--eval"
  | prelude => some "--prelude"
  | noPrelude => some "--no-prelude"
  | limit => some "--macroexpand-limit"
  | dump => some "--dump"
  | file => none

/-- Whether a part of this kind has a value. -/
def Kind.takesValue : Kind → Bool
  | noPrelude | dump => false
  | _ => true

/-- Whether a part of this kind may stand only once on a command line. -/
def Kind.single : Kind → Bool
  | short | long => false
  | _ => true

/-- A part of a command line. -/
structure Part where
  /-- What it is. -/
  kind : Kind
  /-- Its value; the value of a part that takes none is passed over. -/
  value : String

/-- The words that a part is written with. -/
def Part.words (p : Part) : List String :=
  p.kind.spelling?.toList ++ if p.kind.takesValue then [p.value] else []

/-- The words of a command line. -/
abbrev wordsOf (parts : List Part) : List String := parts.flatMap Part.words

/-- The values of the parts of one kind, in order. -/
def valuesOf (k : Kind) (parts : List Part) : List String := (parts.filter (·.kind = k)).map Part.value

/-- The expressions of a command line as they stand there. -/
def given (parts : List Part) : List String :=
  (parts.filter fun p => p.kind = .short ∨ p.kind = .long).map Part.value

/-- All spellings of options. -/
def spellings : List String :=
  ["-h", "--help", "-e", "--eval", "--prelude", "--no-prelude", "--macroexpand-limit", "--dump"]

/-- A command line that makes sense and asks for no help: neither an expression nor the file is the spelling of an
option, the limit is a number, and except for expressions there is one part of each kind at most. -/
structure Proper (parts : List Part) : Prop where
  noHelp : ∀ word ∈ wordsOf parts, word ≠ "-h" ∧ word ≠ "--help"
  expression : ∀ p ∈ parts, p.kind = .short ∨ p.kind = .long → p.value ∉ spellings
  file : ∀ p ∈ parts, p.kind = .file → p.value ∉ spellings
  number : ∀ p ∈ parts, p.kind = .limit → ∃ n, parseLimit p.value = .ok n
  once : ∀ k, k.single = true → (valuesOf k parts).length ≤ 1

/-- Every expression of the short spelling stands before every expression of the long one. -/
def ShortFirst (parts : List Part) : Prop := parts.Pairwise fun p q => ¬ (p.kind = .long ∧ q.kind = .short)

instance (parts : List Part) : Decidable (ShortFirst parts) :=
  inferInstanceAs (Decidable (List.Pairwise _ _))

variable {parts before after : List Part} {p q : Part} {k : Kind} {s word : String} {ws rest : List String}

/-! ## Words -/

@[simp] theorem wordsOf_cons (p : Part) (parts : List Part) : wordsOf (p :: parts) = p.words ++ wordsOf parts :=
  List.flatMap_cons

theorem wordsOf_append (before after : List Part) :
    wordsOf (before ++ after) = wordsOf before ++ wordsOf after := List.flatMap_append

/-- Each kind has a spelling of its own. -/
theorem Kind.spelling?_inj {k l : Kind} (hk : k.spelling? = some s) (hl : l.spelling? = some s) : k = l := by
  have hsame : k.spelling? = l.spelling? := hk.trans hl.symm
  have hsome : k.spelling? ≠ none := hk ▸ nofun
  clear hk hl
  revert hsame hsome
  cases k <;> cases l <;> decide

theorem Kind.mem_spellings (hk : k.spelling? = some s) : s ∈ spellings := by
  cases k <;> cases hk <;> decide

/-- A number is not the spelling of an option. -/
theorem not_mem_spellings_of_parseLimit {n : Nat} (h : parseLimit word = .ok n) : word ∉ spellings := by
  intro hword
  have hall : ∀ word ∈ spellings, (parseLimit word).toOption = none := by decide
  have hnone := hall word hword
  rw [h] at hnone
  cases hnone

/-- No part of another kind has this word. -/
def Free (s : String) (k : Kind) (parts : List Part) : Prop := ∀ p ∈ parts, p.kind ≠ k → s ∉ p.words

theorem Free.of_subset (h : Free s k parts) (hsub : before ⊆ parts) : Free s k before := fun p hp => h p (hsub hp)

/-- The spelling of a kind is no word of another part unless it is its value. -/
theorem not_mem_words (hk : k.spelling? = some s) (hkind : p.kind ≠ k) (hvalue : p.kind.takesValue → p.value ≠ s) :
    s ∉ p.words := by
  intro hs
  obtain hs | hs := List.mem_append.mp hs
  · exact hkind (Kind.spelling?_inj (Option.mem_toList.mp hs) hk)
  · split at hs
    · rename_i htakes
      exact hvalue htakes (List.mem_singleton.mp hs).symm
    · cases hs

/-- The first part of a kind, unless there is none. -/
theorem exists_first (k : Kind) (parts : List Part) : (∀ p ∈ parts, p.kind ≠ k) ∨
    ∃ before p after, parts = before ++ p :: after ∧ p.kind = k ∧ ∀ q ∈ before, q.kind ≠ k := by
  induction parts with
  | nil => exact .inl nofun
  | cons p parts ih =>
    by_cases hp : p.kind = k
    · exact .inr ⟨[], p, parts, rfl, hp, nofun⟩
    · obtain hnone | ⟨before, q, after, rfl, hq, hbefore⟩ := ih
      · exact .inl (List.forall_mem_cons.mpr ⟨hp, hnone⟩)
      · exact .inr ⟨p :: before, q, after, rfl, hq, List.forall_mem_cons.mpr ⟨hp, hbefore⟩⟩

theorem Free.not_mem_wordsOf (h : Free s k parts) (hnone : ∀ p ∈ parts, p.kind ≠ k) : s ∉ wordsOf parts := by
  intro hs
  obtain ⟨p, hp, hword⟩ := List.mem_flatMap.mp hs
  exact h p hp (hnone p hp) hword

/-! ## Taking parts out -/

theorem takeOption_of_not_mem (h : s ∉ ws) : takeOption s ws = .ok none := by
  induction ws with
  | nil => rfl
  | cons word ws ih =>
    obtain ⟨hword, hrest⟩ := not_or.mp (mt List.mem_cons.mpr h)
    unfold takeOption
    rw [if_neg (Ne.symm hword), ih hrest]
    rfl

theorem takeOption_append (h : s ∉ ws) (value : String) (rest : List String) :
    takeOption s (ws ++ s :: value :: rest) = .ok (some (value, ws ++ rest)) := by
  induction ws with
  | nil => simp [takeOption]
  | cons word ws ih =>
    obtain ⟨hword, hrest⟩ := not_or.mp (mt List.mem_cons.mpr h)
    rw [List.cons_append]
    unfold takeOption
    rw [if_neg (Ne.symm hword), ih hrest]
    rfl

/-- The first part of the kind is taken out of the words, and the words of the others are left. -/
theorem takeOption_words (hk : k.spelling? = some s) (hvalue : k.takesValue = true) (hp : p.kind = k)
    (hfree : Free s k before) (hbefore : ∀ q ∈ before, q.kind ≠ k) (after : List Part) :
    takeOption s (wordsOf (before ++ p :: after)) = .ok (some (p.value, wordsOf (before ++ after))) := by
  have hwords : p.words = [s, p.value] := by simp [Part.words, hp, hk, hvalue]
  rw [wordsOf_append, wordsOf_cons, hwords, wordsOf_append]
  exact takeOption_append (hfree.not_mem_wordsOf hbefore) p.value (wordsOf after)

/-- A flag is taken out of the words in the same way. -/
theorem erase_words (hk : k.spelling? = some s) (hvalue : k.takesValue = false) (hp : p.kind = k)
    (hfree : Free s k before) (hbefore : ∀ q ∈ before, q.kind ≠ k) (after : List Part) :
    (wordsOf (before ++ p :: after)).erase s = wordsOf (before ++ after) := by
  have hwords : p.words = [s] := by simp [Part.words, hp, hk, hvalue]
  rw [wordsOf_append, wordsOf_cons, hwords, wordsOf_append,
    List.erase_append_right _ (hfree.not_mem_wordsOf hbefore)]
  simp

theorem takeFlag_of_not_mem {flags : List String} (h : ∀ flag ∈ flags, flag ∉ ws) :
    takeFlag flags ws = (false, ws) := by
  unfold takeFlag
  rw [List.find?_eq_none.mpr fun flag hflag => by simpa using h flag hflag]

theorem takeFlag_of_mem (h : s ∈ ws) : takeFlag [s] ws = (true, ws.erase s) := by
  simp [takeFlag, h]

/-! ## All parts of a kind -/

/-- The parts of other kinds than these. -/
def without (taken : List Kind) (parts : List Part) : List Part := parts.filter (·.kind ∉ taken)

theorem mem_without {taken : List Kind} : p ∈ without taken parts ↔ p ∈ parts ∧ p.kind ∉ taken := by
  simp [without]

theorem without_without (k : Kind) (taken : List Kind) (parts : List Part) :
    without [k] (without taken parts) = without (k :: taken) parts := by
  unfold without
  rw [List.filter_filter]
  refine List.filter_congr fun p _ => ?_
  simp

theorem without_eq_self (h : ∀ p ∈ parts, p.kind ≠ k) : without [k] parts = parts :=
  List.filter_eq_self.mpr fun p hp => by simpa using h p hp

theorem valuesOf_eq_nil (h : ∀ p ∈ parts, p.kind ≠ k) : valuesOf k parts = [] := by
  unfold valuesOf
  rw [List.filter_eq_nil_iff.mpr fun p hp => by simpa using h p hp, List.map_nil]

theorem ne_of_valuesOf_eq_nil (h : valuesOf k parts = []) : ∀ p ∈ parts, p.kind ≠ k := by
  intro p hp
  simpa using List.filter_eq_nil_iff.mp (List.map_eq_nil_iff.mp h) p hp

/-- Without the first part of a kind. -/
theorem without_first (hp : p.kind = k) (before after : List Part) :
    without [k] (before ++ p :: after) = without [k] (before ++ after) := by
  simp [without, hp]

theorem valuesOf_first (hp : p.kind = k) (hbefore : ∀ q ∈ before, q.kind ≠ k) (after : List Part) :
    valuesOf k (before ++ p :: after) = p.value :: valuesOf k (before ++ after) := by
  have hnone : before.filter (·.kind = k) = [] :=
    List.filter_eq_nil_iff.mpr fun q hq => by simpa using hbefore q hq
  simp [valuesOf, hp, hnone]

/-- What is left has the values of the other kinds. -/
theorem valuesOf_without {taken : List Kind} (h : k ∉ taken) (parts : List Part) :
    valuesOf k (without taken parts) = valuesOf k parts := by
  unfold valuesOf without
  rw [List.filter_filter]
  congr 1
  refine List.filter_congr fun p _ => ?_
  by_cases hp : p.kind = k
  · simp [hp, h]
  · simp [hp]

theorem subset_first (before after : List Part) (p : Part) : before ++ after ⊆ before ++ p :: after := by
  intro q hq
  simp only [List.mem_append, List.mem_cons] at hq ⊢
  exact hq.imp_right .inr

/-- One value at most is the first one. -/
theorem head?_valuesOf (h : (valuesOf k parts).length ≤ 1) :
    (valuesOf k parts).head?.toList = valuesOf k parts := by
  match valuesOf k parts, h with
  | [], _ => rfl
  | [_], _ => rfl

/-- There is a word for each value. -/
theorem length_valuesOf_le (hvalue : k.takesValue = true) (parts : List Part) :
    (valuesOf k parts).length ≤ (wordsOf parts).length := by
  induction parts with
  | nil => exact Nat.le_refl 0
  | cons p parts ih =>
    rw [wordsOf_cons, List.length_append]
    by_cases hp : p.kind = k
    · have hword : 1 ≤ p.words.length := by simp [Part.words, hp, hvalue]
      have hvalues : valuesOf k (p :: parts) = p.value :: valuesOf k parts := by simp [valuesOf, hp]
      rw [hvalues, List.length_cons]
      omega
    · have hvalues : valuesOf k (p :: parts) = valuesOf k parts := by simp [valuesOf, hp]
      rw [hvalues]
      omega

/-- All parts of a kind are taken out of the words, one after the other. -/
theorem takeEach_words (hk : k.spelling? = some s) (hvalue : k.takesValue = true) {count : Nat}
    (hfree : Free s k parts) (hcount : (valuesOf k parts).length ≤ count) :
    takeEach s count (wordsOf parts) = .ok (valuesOf k parts, wordsOf (without [k] parts)) := by
  induction count generalizing parts with
  | zero =>
    have hvalues : valuesOf k parts = [] := List.length_eq_zero_iff.mp (Nat.le_zero.mp hcount)
    obtain hnone | ⟨before, p, after, rfl, hp, hbefore⟩ := exists_first k parts
    · rw [hvalues, without_eq_self hnone]
      rfl
    · rw [valuesOf_first hp hbefore] at hvalues
      cases hvalues
  | succ count ih =>
    rw [takeEach]
    obtain hnone | ⟨before, p, after, rfl, hp, hbefore⟩ := exists_first k parts
    · rw [takeOption_of_not_mem (hfree.not_mem_wordsOf hnone), valuesOf_eq_nil hnone, without_eq_self hnone]
      rfl
    · have hsub := subset_first before after p
      rw [valuesOf_first hp hbefore] at hcount ⊢
      have hrest := ih (hfree.of_subset hsub) (Nat.le_of_succ_le_succ hcount)
      rw [takeOption_words hk hvalue hp (hfree.of_subset (List.subset_append_left ..)) hbefore after,
        without_first hp]
      show takeEach s count (wordsOf (before ++ after)) >>= _ = _
      rw [hrest]
      rfl

/-- The one part of a kind that stands only once is taken out of the words, if there is one. -/
theorem takeOptional_words (hk : k.spelling? = some s) (hvalue : k.takesValue = true) (hfree : Free s k parts)
    (honce : (valuesOf k parts).length ≤ 1) :
    takeOptional s (wordsOf parts) = .ok ((valuesOf k parts).head?, wordsOf (without [k] parts)) := by
  unfold takeOptional
  obtain hnone | ⟨before, p, after, rfl, hp, hbefore⟩ := exists_first k parts
  · rw [takeOption_of_not_mem (hfree.not_mem_wordsOf hnone), valuesOf_eq_nil hnone, without_eq_self hnone]
    rfl
  · rw [valuesOf_first hp hbefore] at honce ⊢
    rw [takeOption_words hk hvalue hp (hfree.of_subset (List.subset_append_left ..)) hbefore after,
      without_first hp, without_eq_self (ne_of_valuesOf_eq_nil (by simpa using honce))]
    rfl

theorem takeFlag_words (hk : k.spelling? = some s) (hvalue : k.takesValue = false) (hfree : Free s k parts)
    (honce : (valuesOf k parts).length ≤ 1) :
    takeFlag [s] (wordsOf parts) = (!(valuesOf k parts).isEmpty, wordsOf (without [k] parts)) := by
  obtain hnone | ⟨before, p, after, rfl, hp, hbefore⟩ := exists_first k parts
  · rw [takeFlag_of_not_mem (by simpa using hfree.not_mem_wordsOf hnone), valuesOf_eq_nil hnone,
      without_eq_self hnone]
    rfl
  · have hmem : s ∈ wordsOf (before ++ p :: after) := by
      rw [wordsOf_append, wordsOf_cons]
      simp [Part.words, hp, hk]
    rw [valuesOf_first hp hbefore] at honce ⊢
    rw [takeFlag_of_mem hmem, erase_words hk hvalue hp (hfree.of_subset (List.subset_append_left ..)) hbefore,
      without_first hp, without_eq_self (ne_of_valuesOf_eq_nil (by simpa using honce))]
    rfl

/-! ## All words -/

/-- The options that the parts stand for: the expressions of the short spelling, and then those of the long one. -/
def optionsOf (env : OptionEnv) (parts : List Part) : Options where
  preludePath := (valuesOf .prelude parts).head?.or env.prelude
  loadPrelude := (valuesOf .noPrelude parts).isEmpty
  expansionLimit := ((valuesOf .limit parts).head?.bind fun text => (parseLimit text).toOption).getD
    (ofEnv env).expansionLimit
  exprs := valuesOf .short parts ++ valuesOf .long parts
  file := (valuesOf .file parts).head?
  dump := !(valuesOf .dump parts).isEmpty

/-- What is not an option is the file. -/
theorem wordsOf_files (h : ∀ p ∈ parts, p.kind = .file) : wordsOf parts = valuesOf .file parts := by
  induction parts with
  | nil => rfl
  | cons p parts ih =>
    obtain ⟨hp, hparts⟩ := List.forall_mem_cons.mp h
    have hwords : p.words = [p.value] := by simp [Part.words, hp, Kind.spelling?, Kind.takesValue]
    rw [wordsOf_cons, ih hparts, hwords]
    simp [valuesOf, hp]

namespace Proper

/-- Only the path of the prelude may look like an option. -/
theorem value_notMem (h : Proper parts) (hp : p ∈ parts) (hkind : p.kind ≠ .prelude) (htakes : p.kind.takesValue) :
    p.value ∉ spellings := by
  cases hk : p.kind with
  | short => exact h.expression p hp (.inl hk)
  | long => exact h.expression p hp (.inr hk)
  | file => exact h.file p hp hk
  | limit =>
    obtain ⟨n, hn⟩ := h.number p hp hk
    exact not_mem_spellings_of_parseLimit hn
  | prelude => exact absurd hk hkind
  | noPrelude | dump =>
    rw [hk] at htakes
    cases htakes

/-- The prelude is found, although its path may look like an option: it is looked for first. -/
theorem free_prelude (h : Proper parts) : Free "--prelude" .prelude parts := fun _ hp hkind =>
  not_mem_words rfl hkind fun htakes hvalue =>
    h.value_notMem hp hkind htakes (hvalue ▸ Kind.mem_spellings (k := .prelude) rfl)

/-- When the prelude has been taken every other part is found. -/
theorem free (h : Proper parts) {taken : List Kind} (htaken : .prelude ∈ taken) (hk : k.spelling? = some s) :
    Free s k (without taken parts) := by
  intro p hp hkind
  obtain ⟨hp, hnew⟩ := mem_without.mp hp
  have hother : p.kind ≠ .prelude := fun heq => hnew (heq ▸ htaken)
  exact not_mem_words hk hkind fun htakes hvalue =>
    h.value_notMem hp hother htakes (hvalue ▸ Kind.mem_spellings hk)

section

variable (h : Proper parts) (taken : List Kind) (htaken : .prelude ∈ taken) (hnew : k ∉ taken)
  (hk : k.spelling? = some s)
include h htaken hnew hk

/-- The next option is taken out of what is left. -/
theorem takeOptional (hvalue : k.takesValue = true) (hsingle : k.single = true) :
    Options.takeOptional s (wordsOf (without taken parts)) =
      .ok ((valuesOf k parts).head?, wordsOf (without (k :: taken) parts)) := by
  have honce : (valuesOf k (without taken parts)).length ≤ 1 := by
    rw [valuesOf_without hnew]
    exact h.once k hsingle
  rw [takeOptional_words hk hvalue (h.free htaken hk) honce, valuesOf_without hnew, without_without]

/-- The next flag is taken out of what is left. -/
theorem takeFlag (hvalue : k.takesValue = false) (hsingle : k.single = true) :
    Options.takeFlag [s] (wordsOf (without taken parts)) =
      (!(valuesOf k parts).isEmpty, wordsOf (without (k :: taken) parts)) := by
  have honce : (valuesOf k (without taken parts)).length ≤ 1 := by
    rw [valuesOf_without hnew]
    exact h.once k hsingle
  rw [takeFlag_words hk hvalue (h.free htaken hk) honce, valuesOf_without hnew, without_without]

/-- The next expressions are taken out of what is left. -/
theorem takeEach (hvalue : k.takesValue = true) :
    Options.takeEach s (wordsOf (without taken parts)).length (wordsOf (without taken parts)) =
      .ok (valuesOf k parts, wordsOf (without (k :: taken) parts)) := by
  rw [takeEach_words hk hvalue (h.free htaken hk) (length_valuesOf_le hvalue _), valuesOf_without hnew,
    without_without]

end

end Proper

/-- A command line that makes sense is read to the options that its parts stand for. -/
theorem parse_words (h : Proper parts) (env : OptionEnv) :
    parse env (wordsOf parts) = .ok (some (optionsOf env parts)) := by
  have hhelp : takeFlag ["-h", "--help"] (wordsOf parts) = (false, wordsOf parts) := by
    refine takeFlag_of_not_mem fun flag hflag hword => ?_
    obtain ⟨hshort, hlong⟩ := h.noHelp flag hword
    simp [hshort, hlong] at hflag
  have hprelude := takeOptional_words rfl rfl h.free_prelude (h.once .prelude rfl)
  have hbare := h.takeFlag [.prelude] (k := .noPrelude) (by decide) (by decide) rfl rfl rfl
  have hlimit := h.takeOptional [.noPrelude, .prelude] (k := .limit) (by decide) (by decide) rfl rfl rfl
  have hdump := h.takeFlag [.limit, .noPrelude, .prelude] (k := .dump) (by decide) (by decide) rfl rfl rfl
  have hshort := h.takeEach [.dump, .limit, .noPrelude, .prelude] (k := .short) (by decide) (by decide)
    rfl rfl
  have hlong := h.takeEach [.short, .dump, .limit, .noPrelude, .prelude] (k := .long) (by decide)
    (by decide) rfl rfl
  have hleft : wordsOf (without [.long, .short, .dump, .limit, .noPrelude, .prelude] parts) = valuesOf .file parts := by
    rw [wordsOf_files fun p hp => ?_, valuesOf_without (by decide)]
    have hother := (mem_without.mp hp).2
    cases hk : p.kind <;> simp_all
  simp only [parse, hhelp, hprelude, hbare, hlimit, hdump, takeAll, hshort, hlong, hleft, bind, Except.bind, pure,
    Except.pure, Bool.false_eq_true, if_false, Bool.not_not]
  have hlast := head?_valuesOf (h.once .file rfl)
  cases htext : (valuesOf .limit parts).head? with
  | none =>
    dsimp only
    cases hfile : (valuesOf .file parts).head? <;> rw [← hlast, hfile] <;> simp [optionsOf, htext, hfile, ofEnv]
  | some text =>
    obtain ⟨p, hp, rfl⟩ := List.mem_map.mp (List.mem_of_mem_head? htext)
    obtain ⟨hp, hkind⟩ := List.mem_filter.mp hp
    obtain ⟨n, hn⟩ := h.number p hp (by simpa using hkind)
    have hread : (parseLimit p.value).mapError (OptionFault.notNumber p.value) = .ok n := congrArg (Except.mapError _) hn
    simp only [hread]
    cases hfile : (valuesOf .file parts).head? <;> rw [← hlast, hfile] <;>
      simp [optionsOf, htext, hfile, hn, ofEnv, Except.toOption]

/-! ## The order of the expressions -/

theorem valuesOf_cons (k : Kind) (p : Part) (parts : List Part) :
    valuesOf k (p :: parts) = if p.kind = k then p.value :: valuesOf k parts else valuesOf k parts := by
  unfold valuesOf
  split <;> simp [*]

theorem given_cons (p : Part) (parts : List Part) :
    given (p :: parts) = if p.kind = .short ∨ p.kind = .long then p.value :: given parts else given parts := by
  unfold given
  split <;> simp [*]

theorem mem_given (h : word ∈ valuesOf .short parts) : word ∈ given parts := by
  obtain ⟨p, hp, rfl⟩ := List.mem_map.mp h
  obtain ⟨hp, hkind⟩ := List.mem_filter.mp hp
  exact List.mem_map_of_mem (List.mem_filter.mpr ⟨hp, by simp_all⟩)

/-- Where no short spelling stands behind a long one, taking the spellings one after the other keeps the order. -/
theorem values_eq_given (h : ShortFirst parts) : valuesOf .short parts ++ valuesOf .long parts = given parts := by
  induction parts with
  | nil => rfl
  | cons p parts ih =>
    obtain ⟨hp, hparts⟩ := List.pairwise_cons.mp h
    have hrest := ih hparts
    rw [valuesOf_cons, valuesOf_cons, given_cons]
    cases hk : p.kind with
    | short => simpa using hrest
    | long =>
      -- Behind a long spelling there are no short ones.
      have hnone : valuesOf .short parts = [] := valuesOf_eq_nil fun q hq hshort => hp q hq ⟨hk, hshort⟩
      rw [hnone] at hrest ⊢
      simpa using hrest
    | _ => simpa using hrest

/-- Where no text is given twice, the order is kept only in this case. -/
theorem shortFirst_of_values_eq_given (hnodup : (given parts).Nodup)
    (h : valuesOf .short parts ++ valuesOf .long parts = given parts) : ShortFirst parts := by
  induction parts with
  | nil => exact .nil
  | cons p parts ih =>
    rw [given_cons] at hnodup h
    rw [valuesOf_cons, valuesOf_cons] at h
    cases hk : p.kind with
    | long =>
      simp only [hk, reduceCtorEq, if_true, if_false, or_true] at hnodup h
      -- A short spelling behind this one would be taken first, with the same text.
      have hnone : valuesOf .short parts = [] := by
        cases hvalues : valuesOf .short parts with
        | nil => rfl
        | cons text texts =>
          rw [hvalues, List.cons_append] at h
          have htext : text ∈ given parts := mem_given (hvalues ▸ List.mem_cons_self ..)
          rw [(List.cons.inj h).1] at htext
          exact absurd htext (List.nodup_cons.mp hnodup).1
      rw [hnone, List.nil_append] at h
      refine .cons (fun q hq hpq => ne_of_valuesOf_eq_nil hnone q hq hpq.2) (ih hnodup.of_cons ?_)
      rw [hnone, List.nil_append]
      exact (List.cons.inj h).2
    | short =>
      simp only [hk, reduceCtorEq, if_true, if_false, true_or, List.cons_append, List.cons.injEq, true_and] at hnodup h
      exact .cons (fun q _ hpq => by simp [hk] at hpq) (ih hnodup.of_cons h)
    | _ =>
      simp only [hk, reduceCtorEq, if_false, or_self] at hnodup h
      exact .cons (fun q _ hpq => by simp [hk] at hpq) (ih hnodup h)

end SmallLisp.Options

namespace SmallLisp.CommandLine

/-! ## Evaluation in turn -/

/-- What a run evaluates. -/
inductive Source where
  | text (t : String)
  | file (path : String)

/-- Evaluates a text or a file. -/
def Source.eval (files : Files) (depth : Nat) : Source → Action (Option Value)
  | text t => Session.evalText mainSite depth t
  | file path => Session.evalFile files mainSite depth path

/-- How it ends when texts and files are evaluated one after the other, up to the first that fails. The value is the
one of the last of them. -/
inductive InTurn (files : Files) (depth : Nat) :
    List Source → Option Value → World → EStateM.Result Halt World (Option Value) → Prop
  | done (last : Option Value) (w : World) : InTurn files depth [] last w (.ok last w)
  | next {s : Source} {rest : List Source} {last v : Option Value} {w u : World}
    {r : EStateM.Result Halt World (Option Value)} (h : s.eval files depth w = .ok v u)
    (hrest : InTurn files depth rest v u r) : InTurn files depth (s :: rest) last w r
  | fails {s : Source} {rest : List Source} {last : Option Value} {w u : World} {e : Halt}
    (h : s.eval files depth w = .error e u) : InTurn files depth (s :: rest) last w (.error e u)

variable {files : Files} {depth : Nat} {sources : List Source} {last : Option Value} {w : World}
  {r : EStateM.Result Halt World (Option Value)}

/-- Only one end is possible, the one that a fold comes to. -/
theorem inTurn_iff : InTurn files depth sources last w r ↔
    sources.foldlM (fun _ s => s.eval files depth) last w = r := by
  induction sources generalizing last w with
  | nil =>
    constructor
    · rintro ⟨⟩
      rfl
    · rintro rfl
      exact .done last w
  | cons s rest ih =>
    rw [List.foldlM_cons]
    constructor
    · rintro (_ | ⟨h, hrest⟩ | h)
      · rw [run_bind_of_ok h]
        exact ih.mp hrest
      · exact run_bind_of_error h
    · rintro rfl
      cases h : s.eval files depth w with
      | ok v u =>
        refine .next h (ih.mpr ?_)
        rw [run_bind_of_ok h]
      | error e u =>
        rw [run_bind_of_error h]
        exact .fails h

/-- The expressions are evaluated in turn, and then the file. -/
theorem evalAll_eq (files : Files) (depth : Nat) (options : Options) : evalAll files depth options =
    (options.exprs.map Source.text ++ options.file.toList.map Source.file).foldlM
      (fun _ s => s.eval files depth) none := by
  unfold evalAll evalExprs
  rw [List.foldlM_append, List.foldlM_map]
  congr 1
  funext last
  cases options.file with
  | none => rfl
  | some path => exact (bind_pure _).symm

end SmallLisp.CommandLine

namespace SmallLisp.Options

open CommandLine (InTurn evalAll)

/-- The expressions of every command line that makes sense are evaluated as they stand there, before the file. -/
def KeepsOrder : Prop :=
  ∀ parts env, Proper parts → ∃ options, parse env (wordsOf parts) = .ok (some options) ∧
    options.exprs = given parts ∧ ∀ files depth w r,
      InTurn files depth ((given parts).map .text ++ (valuesOf .file parts).map .file) none w r ↔
        evalAll files depth options w = r

/-- A command line that makes sense is read. Its expressions are evaluated in turn before its file: those of the short
spelling and then those of the long one, and each of the two as they stand on the command line. So all of them are
evaluated as they stand there if no short spelling stands behind a long one, and, unless a text is given twice, only
then. -/
theorem evaluates_given (h : Proper parts) (env : OptionEnv) :
    ∃ options, parse env (wordsOf parts) = .ok (some options) ∧
      options.exprs = valuesOf .short parts ++ valuesOf .long parts ∧
      (ShortFirst parts → options.exprs = given parts) ∧
      ((given parts).Nodup → options.exprs = given parts → ShortFirst parts) ∧
      ∀ files depth w r,
        InTurn files depth (options.exprs.map .text ++ (valuesOf .file parts).map .file) none w r ↔
          evalAll files depth options w = r := by
  refine ⟨optionsOf env parts, parse_words h env, rfl, values_eq_given, shortFirst_of_values_eq_given,
    fun files depth w r => ?_⟩
  have hfile : (optionsOf env parts).file.toList = valuesOf .file parts := head?_valuesOf (h.once .file rfl)
  rw [CommandLine.evalAll_eq, hfile]
  exact CommandLine.inTurn_iff

/-- Expressions in both spellings, among other options and in front of a file. The path of the prelude looks like an
option. -/
def mixed : List Part :=
  [⟨.short, "(def x 1)"⟩, ⟨.prelude, "--dump"⟩, ⟨.limit, "7"⟩, ⟨.dump, ""⟩, ⟨.short, "x"⟩, ⟨.long, "(+ x 1)"⟩,
    ⟨.file, "main.clj"⟩]

theorem evaluates_given_mixed : Proper mixed ∧ ShortFirst mixed ∧
    ∃ options, parse ⟨none, none⟩ ["-e", "(def x 1)", "--prelude", "--dump", "--macroexpand-limit", "7", "--dump", "-e",
        "x", "--eval", "(+ x 1)", "main.clj"] = .ok (some options) ∧
      options.exprs = ["(def x 1)", "x", "(+ x 1)"] := by
  have hproper : Proper mixed := {
    noHelp := by decide
    expression := by decide
    file := by decide
    number := by
      intro p hp hkind
      simp only [mixed, List.mem_cons, List.not_mem_nil, or_false] at hp
      obtain rfl | rfl | rfl | rfl | rfl | rfl | rfl := hp <;> first | exact ⟨7, rfl⟩ | cases hkind
    once := fun k => by cases k <;> decide }
  have hfirst : ShortFirst mixed := by decide
  obtain ⟨options, hparse, -, hgiven, -⟩ := evaluates_given hproper ⟨none, none⟩
  exact ⟨hproper, hfirst, options, hparse, hgiven hfirst⟩

/-- A definition in the long spelling is evaluated behind an expression in the short one that uses it. -/
theorem not_keepsOrder : ¬ KeepsOrder := by
  intro h
  have hproper : Proper [⟨.long, "(def x 1)"⟩, ⟨.short, "x"⟩] := {
    noHelp := by decide
    expression := by decide
    file := by decide
    number := by simp
    once := fun k => by cases k <;> decide }
  obtain ⟨options, hparse, hgiven, -⟩ := h _ ⟨none, none⟩ hproper
  have hread := parse_words hproper ⟨none, none⟩
  rw [hread] at hparse
  cases hparse
  exact absurd hgiven (by decide)

end SmallLisp.Options
