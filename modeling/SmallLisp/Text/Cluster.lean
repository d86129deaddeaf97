import SmallLisp.Text.ClusterClass

/-!
# Clusters

Where a text falls apart into what a reader takes for its characters: the extended grapheme clusters
of the Unicode standard. Whether a cluster goes on with the next character is decided by the classes
of the next character and of the last one (`ClusterTail.goesOn`), and in three cases by what stood
before: halves of flags go together in pairs, pictographs when a joiner stands between them, and
consonants when a linker does.
-/

namespace SmallLisp.Text

/-- What the end of a text tells of where its last cluster can go on. -/
structure ClusterTail where
  /-- The class of the last character, if there is one. -/
  last : Option ClusterClass
  /-- The text ends in an odd number of halves of flags. -/
  halfFlag : Bool
  /-- The text ends in a pictograph, perhaps with extending characters after it, and after those
  perhaps one joiner. -/
  pictograph : Bool
  /-- The text ends in a consonant, perhaps with characters after it that can stand between joined
  consonants. -/
  consonant : Bool
  /-- A linker is among the characters after that consonant. -/
  linked : Bool

namespace ClusterTail

/-- The end of the empty text. -/
def empty : ClusterTail := ⟨none, false, false, false, false⟩

/-- Whether a character of the class belongs to the cluster at the end of the text. -/
def goesOn (t : ClusterTail) (next : ClusterClass) : Bool :=
  match t.last, next with
  | none, _ => false
  | some .carriageReturn, .lineFeed => true
  | some .carriageReturn, _ | some .lineFeed, _ | some .control, _ => false
  | _, .carriageReturn | _, .lineFeed | _, .control => false
  | _, .extending | _, .linker | _, .nonJoiner | _, .joiner | _, .spacing => true
  | some .prepended, _ => true
  | some .leading, .leading | some .leading, .vowel => true
  | some .leading, .openSyllable | some .leading, .closedSyllable => true
  | some .vowel, .vowel | some .vowel, .trailing => true
  | some .openSyllable, .vowel | some .openSyllable, .trailing => true
  | some .closedSyllable, .trailing | some .trailing, .trailing => true
  | _, .consonant => t.linked
  | some .joiner, .pictograph => t.pictograph
  | some .regional, .regional => t.halfFlag
  | _, _ => false

/-- Whether characters of the class can stand between a pictograph and its joiner. -/
def extendsPictograph : ClusterClass → Bool
  | .extending | .linker | .nonJoiner => true
  | _ => false

/-- The end of the text with one more character. -/
def extend (t : ClusterTail) (next : ClusterClass) : ClusterTail where
  last := some next
  halfFlag := next == .regional && !t.halfFlag
  pictograph :=
    next == .pictograph ||
      (t.pictograph && t.last != some .joiner && (next == .joiner || extendsPictograph next))
  consonant :=
    next == .consonant ||
      (t.consonant && (next == .linker || next == .joiner || next == .extending))
  linked :=
    t.consonant && (next == .linker || (t.linked && (next == .joiner || next == .extending)))

end ClusterTail

/-- The clusters of the characters that follow a text: those that still belong to the cluster at its
end, and the clusters after it. -/
def clustersAfter (t : ClusterTail) : List Char → List Char × List (List Char)
  | [] => ([], [])
  | c :: cs =>
    let cls := ClusterClass.ofChar c
    let (first, others) := clustersAfter (t.extend cls) cs
    if t.goesOn cls then (c :: first, others) else ([], (c :: first) :: others)

/-- The clusters of a text. -/
def clusters (text : List Char) : List (List Char) := (clustersAfter .empty text).2

end SmallLisp.Text
