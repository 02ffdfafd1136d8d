import DeepScope.Files.Path

/-!
A tree of files and directories, and what reading and writing do to it. Every path leads
somewhere in one tree: an absolute one from the outermost directory, which is its own parent,
and any other one from the directory that the tree is looked at from.
-/

namespace DeepScope

/-- Why a file cannot be read or written. -/
inductive IoError where
  | notFound
  | notADirectory
  | isADirectory
  | nameTooLong
  | nulInPath
  | other (text : String)
deriving DecidableEq, Repr

/-- The wording of each reason, with the number that the system gives it. A path
    with a zero character never gets as far as the system. -/
def IoError.message : IoError → String
  | notFound => "No such file or directory (os error 2)"
  | notADirectory => "Not a directory (os error 20)"
  | isADirectory => "Is a directory (os error 21)"
  | nameTooLong => "File name too long (os error 36)"
  | nulInPath => "file name contained an unexpected NUL byte"
  | other text => text

/-- The contents of a file. -/
abbrev Bytes := List UInt8

/-- What stands at a place in a tree. -/
inductive Node where
  | file (bytes : Bytes)
  | directory
deriving DecidableEq, Repr

/-- A place in a tree: the names from the outermost directory down. -/
abbrev Location := List String

/-- Files and directories by their places. The outermost directory always
    exists. Paths that are not absolute lead on from the start directory. -/
structure FileTree where
  start : Location
  entries : List (Location × Node)
deriving DecidableEq, Repr

namespace FileTree

/-- What stands at a place. -/
def lookup (tree : FileTree) (place : Location) : Option Node :=
  if place = [] then some .directory else tree.entries.lookup place

/-- Puts something at a place, instead of what stood there. -/
def insert (tree : FileTree) (place : Location) (node : Node) : FileTree :=
  { tree with entries := (place, node) :: tree.entries.filter fun entry => entry.1 ≠ place }

/-- The greatest number of bytes in a name. -/
def nameLimit : Nat := 255

/-- The greatest number of bytes in a path. -/
def pathLimit : Nat := 4095

/-- Whether a segment has too many bytes to be a name. -/
def isTooLong (segment : List Char) : Bool :=
  nameLimit < (String.ofList segment).utf8ByteSize

/-- Where a segment leads to from a directory. -/
def enter (place : Location) (segment : List Char) : Except IoError Location :=
  if Path.isVoid segment then .ok place
  else if segment = ['.', '.'] then .ok place.dropLast
  else if isTooLong segment then .error .nameTooLong
  else .ok (place ++ [String.ofList segment])

/-- Follows segments of a path from a place on. Each of them, and even one that
    names nothing, needs a directory to start from. -/
def follow (tree : FileTree) (place : Location) : List (List Char) → Except IoError Location
  | [] => .ok place
  | segment :: rest =>
    match tree.lookup place with
    | none => .error .notFound
    | some (.file _) => .error .notADirectory
    | some .directory =>
      match enter place segment with
      | .error reason => .error reason
      | .ok next => tree.follow next rest

/-- Where a path with the given segments starts from: an absolute one begins with
    an empty segment. -/
def origin (tree : FileTree) : List (List Char) → Location
  | [] :: _ => []
  | _ => tree.start

/-- The place that a path leads to, which may be vacant. An empty path leads
    nowhere. -/
def resolve (tree : FileTree) (path : String) : Except IoError Location :=
  if path.toList.contains '\x00' then .error .nulInPath
  else if pathLimit < path.utf8ByteSize then .error .nameTooLong
  else if path.isEmpty then .error .notFound
  else tree.follow (tree.origin (Path.segments path)) (Path.segments path)

/-- Whether a path leads to a file. -/
def isFile (tree : FileTree) (path : String) : Bool :=
  match tree.resolve path with
  | .error _ => false
  | .ok place =>
    match tree.lookup place with
    | some (.file _) => true
    | _ => false

/-- The contents of the file at a path. -/
def read (tree : FileTree) (path : String) : Except IoError Bytes := do
  let place ← tree.resolve path
  match tree.lookup place with
  | none => throw .notFound
  | some .directory => throw .isADirectory
  | some (.file bytes) => return bytes

/-- Writes the file at a path, which may be a new one. -/
def write (tree : FileTree) (path : String) (bytes : Bytes) : Except IoError FileTree := do
  let place ← tree.resolve path
  match tree.lookup place with
  | some .directory => throw .isADirectory
  | _ => return tree.insert place (.file bytes)

/-- The place that a path leads to if all of its names lead down. -/
def placeOf (tree : FileTree) (path : String) : Location :=
  tree.origin (Path.segments path) ++ Path.names (Path.segments path)

/-- Makes a directory for each name on the way down from a place. -/
def makeDirectories (tree : FileTree) (place : Location) : List String → FileTree
  | [] => tree
  | name :: rest =>
    (tree.insert (place ++ [name]) .directory).makeDirectories (place ++ [name]) rest

/-- Makes a directory at a path, and every one that it lies in. -/
def addDirectory (tree : FileTree) (path : String) : FileTree :=
  tree.makeDirectories [] (tree.placeOf path)

/-- A tree without files, looked at from a directory of its own. -/
def empty : FileTree :=
  addDirectory ⟨["work"], []⟩ "."

/-- Puts a file at a path, and makes every directory that it lies in. -/
def addFile (tree : FileTree) (path : String) (bytes : Bytes) : FileTree :=
  (tree.makeDirectories [] (tree.placeOf path).dropLast).insert (tree.placeOf path) (.file bytes)

/-- The segments of a path to a place: from the start directory if the place lies
    inside of it, and those of an absolute path if not. -/
def address (tree : FileTree) (place : Location) : List String :=
  if tree.start.isPrefixOf place then place.drop tree.start.length else "" :: place

/-- The files that are not what they were before, and how paths lead to them. -/
def changesSince (tree before : FileTree) : List (List String × Bytes) :=
  tree.entries.filterMap fun (place, _) =>
    match tree.lookup place with
    | some (.file bytes) =>
      if before.lookup place = some (.file bytes) then none else some (tree.address place, bytes)
    | _ => none

end FileTree

end DeepScope
