namespace MiniLisp

/-- Why a file could not be read as text. -/
inductive FileFault where
  | missing
  | isDirectory
  | notDirectory
  | tooLong
  | notText
  | nulInPath
  deriving DecidableEq

def FileFault.message : FileFault → String
  | missing => "No such file or directory (os error 2)"
  | isDirectory => "Is a directory (os error 21)"
  | notDirectory => "Not a directory (os error 20)"
  | tooLong => "File name too long (os error 36)"
  | notText => "stream did not contain valid UTF-8"
  | nulInPath => "file name contained an unexpected NUL byte"

/-- Contents under the names that lead to them from the working directory. A directory exists if it
leads to a file. -/
structure Files where
  entries : List (List String × ByteArray)

namespace Files

/-- Where the names of a path lead. -/
inductive Place where
  | inside (names : List String)
  /-- A directory outside the working directory, about whose entries nothing is known. -/
  | outside

/-- How many bytes a path may have. -/
def maxPathSize : Nat := 4095

/-- How many bytes a name on a path may have. -/
def maxNameSize : Nat := 255

def empty : Files := ⟨[]⟩

/-- The names on a path. A path that ends in a slash has an empty last name. -/
def names (path : String) : List String :=
  path.toList.splitOn '/' |>.map String.ofList

/-- Adds a file under its path from the working directory. -/
def add (files : Files) (path : String) (content : ByteArray) : Files :=
  ⟨((names path).filter fun s => s != "" && s != ".", content) :: files.entries⟩

def content? (files : Files) (names : List String) : Option ByteArray :=
  (files.entries.find? (·.1 == names)).map (·.2)

def isDirectory (files : Files) : Place → Bool
  | .outside => true
  | .inside names =>
    names == [] ||
      files.entries.any fun (path, _) => names.isPrefixOf path && path.length != names.length

def Place.parent : Place → Place
  | outside => outside
  | inside [] => outside
  | inside names => inside names.dropLast

/-- What a name leads to in a directory, if there is any such entry. -/
def step (files : Files) (place : Place) (name : String) : Option Place :=
  match place with
  | .outside => none
  | .inside names =>
    let next := names ++ [name]
    if files.isDirectory (.inside next) || (files.content? next).isSome then some (.inside next)
    else none

/-- Follows names. Only in a directory can a name follow, also an empty one. -/
def walk (files : Files) (place : Place) : List String → Except FileFault Place
  | [] => .ok place
  | name :: rest =>
    if !files.isDirectory place then .error .notDirectory
    else if name == "" || name == "." then files.walk place rest
    else if name == ".." then files.walk place.parent rest
    else if maxNameSize < name.utf8ByteSize then .error .tooLong
    else
      match files.step place name with
      | some next => files.walk next rest
      | none => .error .missing

/-- The text of the file at `path`. -/
def read (files : Files) (path : String) : Except FileFault String := do
  if path.toList.contains '\x00' then .error .nulInPath
  else if path == "" then .error .missing
  else if maxPathSize < path.utf8ByteSize then .error .tooLong
  else
    let start := if path.toList.head? == some '/' then Place.outside else .inside []
    match ← files.walk start (names path) with
    | .outside => .error .isDirectory
    | .inside place =>
      match files.content? place with
      | none => .error .isDirectory
      | some bytes =>
        match String.fromUTF8? bytes with
        | none => .error .notText
        | some text => .ok text

end Files
end MiniLisp
