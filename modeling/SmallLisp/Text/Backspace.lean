import SmallLisp.Text.Cluster

/-!
# Backspaces

A line may hold backspaces, which its writer typed to take characters back. `takeBack` gives the
line that is left.
-/

namespace SmallLisp.Text

/-- The character that takes back what is before it. -/
def backspace : Char := '\x08'

/-- The number of bytes of a text. -/
def byteSize : List Char → Nat
  | [] => 0
  | c :: cs => c.utf8Size + byteSize cs

/-- Drops characters from the front of a text until the given number of bytes is gone. -/
def dropBytes : Nat → List Char → List Char
  | _, [] => []
  | 0, cs => cs
  | n, c :: cs => dropBytes (n - c.utf8Size) cs

/-- A line being written. -/
structure Draft where
  /-- What stands, the last character first. -/
  kept : List Char
  /-- How much each backspace would take back, in bytes, the next one first. -/
  sizes : List Nat

/-- Writes a cluster, or takes the last one back. A size is kept in one byte, so that of a cluster
of 256 bytes or more only the last ones are taken back. -/
def Draft.write (d : Draft) (cluster : List Char) : Draft :=
  if cluster = [backspace] then
    match d.sizes with
    | [] => d
    | n :: sizes => ⟨dropBytes n d.kept, sizes⟩
  else ⟨cluster.reverse ++ d.kept, (byteSize cluster % 256) :: d.sizes⟩

/-- A line without its backspaces, each of which has taken back the cluster before it. -/
def takeBack (line : List Char) : List Char :=
  if line.contains backspace then
    ((clusters line).foldl Draft.write ⟨[], []⟩).kept.reverse
  else line

end SmallLisp.Text
