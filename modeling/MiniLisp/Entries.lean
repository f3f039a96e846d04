namespace MiniLisp

/-- Finite maps as lists of pairs in ascending order of their keys. -/
abbrev Entries (κ ν : Type) := List (κ × ν)

namespace Entries

variable {κ ν : Type}

@[specialize]
def find? [DecidableEq κ] (key : κ) : Entries κ ν → Option ν
  | [] => none
  | (k, v) :: rest => if k = key then some v else find? key rest

/-- An entry of the same key is replaced. -/
@[specialize]
def insert [Ord κ] (key : κ) (value : ν) : Entries κ ν → Entries κ ν
  | [] => [(key, value)]
  | (k, v) :: rest =>
    match compare k key with
    | .lt => (k, v) :: insert key value rest
    | .eq => (key, value) :: rest
    | .gt => (key, value) :: (k, v) :: rest

@[specialize]
def erase [DecidableEq κ] (key : κ) : Entries κ ν → Entries κ ν
  | [] => []
  | (k, v) :: rest => if k = key then rest else (k, v) :: erase key rest

/-- The entries of both, where those of `upper` win. -/
def overlay [Ord κ] (lower upper : Entries κ ν) : Entries κ ν :=
  upper.foldl (fun all (k, v) => insert k v all) lower

end Entries
end MiniLisp
