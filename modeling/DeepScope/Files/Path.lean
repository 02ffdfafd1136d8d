import DeepScope.Text.Basic

/-!
Paths, and the names at their ends. A path is a text whose segments stand between slashes;
segments that are empty or a single dot name nothing.
-/

namespace DeepScope

namespace Path

/-- The segments of a path. -/
def segments (path : String) : List (List Char) :=
  splitOn (· = '/') path.toList

/-- The path with the given segments. -/
def ofSegments (segments : List (List Char)) : String :=
  String.ofList (['/'].intercalate segments)

/-- Whether a segment names nothing. -/
def isVoid (segment : List Char) : Bool :=
  segment = [] || segment = ['.']

/-- The names among segments, those that go up included. -/
def names (segments : List (List Char)) : List String :=
  (segments.filter fun segment => !isVoid segment).map String.ofList

/-- Takes off the segment that only says where a path starts: the empty one of
    an absolute path, or a dot. -/
def splitStart : List (List Char) → List (List Char) × List (List Char)
  | [] => ([], [])
  | first :: body =>
    if first = [] && !body.isEmpty || first = ['.'] then ([first], body)
    else ([], first :: body)

/-- The segments in front of the last name, and that name. Segments that name
    nothing are dropped on both of its sides. A path that ends in two dots has
    no name at its end. -/
def splitName (path : String) : Option (List (List Char) × List Char) :=
  let (start, body) := splitStart (segments path)
  match body.reverse.dropWhile isVoid with
  | [] => none
  | name :: before =>
    if name = ['.', '.'] then none
    else some (start ++ (before.dropWhile isVoid).reverse, name)

end Path

/-- The three files written for `name.css`, in the same directory. -/
structure OutputPaths where
  /-- The stylesheet itself, minified: `name.min.css`. -/
  minified : String
  /-- The scoped stylesheet: `name_deep.css`. -/
  deep : String
  /-- The scoped stylesheet, minified: `name_deep.min.css`. -/
  deepMinified : String
deriving DecidableEq, Repr

namespace OutputPaths

/-- The outputs for an input, whose name must have something in front of
    `.css`. -/
def ofInput (path : String) : Option OutputPaths := do
  let (directory, name) ← Path.splitName path
  let stem ← dropEnding (String.ofList name) ".css"
  if stem.isEmpty then none
  else
    let sibling := fun (ending : String) =>
      Path.ofSegments (directory ++ [(stem ++ ending).toList])
    return ⟨sibling ".min.css", sibling "_deep.css", sibling "_deep.min.css"⟩

end OutputPaths

end DeepScope
