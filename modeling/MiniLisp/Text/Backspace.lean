import MiniLisp.Text.Cluster

namespace MiniLisp.Backspace

/-- The backspace, a cluster of its own because it is a control character. -/
def mark : Char := '\x08'

/-- What has been typed: its characters, the last one first, and the size of each cluster that can
be taken back. -/
structure Typed where
  reversed : List Char
  sizes : List Nat

/-- Takes back characters of `size` bytes in all. -/
def takeBack (size : Nat) : List Char → List Char
  | [] => []
  | c :: cs => if size = 0 then c :: cs else takeBack (size - c.utf8Size) cs

/-- The size of a cluster in bytes is kept in one byte. -/
def keptSize (cluster : List Char) : Nat :=
  (String.ofList cluster).utf8ByteSize % 256

def type (typed : Typed) (cluster : List Char) : Typed :=
  if cluster = [mark] then
    match typed.sizes with
    | [] => typed
    | size :: sizes => ⟨takeBack size typed.reversed, sizes⟩
  else ⟨cluster.reverse ++ typed.reversed, keptSize cluster :: typed.sizes⟩

/-- The line that is left of what was typed. -/
def apply (line : List Char) : List Char :=
  ((clusters line).foldl type ⟨[], []⟩).reversed.reverse

end MiniLisp.Backspace
