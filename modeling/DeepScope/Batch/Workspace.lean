import DeepScope.Batch.Event

namespace DeepScope

/-- Files that can be read and written by their paths, and a log. -/
class Workspace (m : Type → Type) where
  isFile : String → m Bool
  read : String → m (Except IoError Bytes)
  write : String → Bytes → m (Except IoError Unit)
  log : Event → m Unit

/-- The state of a workspace in memory: its files, and what has been logged. -/
structure Snapshot where
  files : FileTree
  log : List Event
deriving DecidableEq, Repr

/-- A workspace in memory. -/
abbrev InMemory := StateM Snapshot

namespace InMemory

/-- Writes a file; on failure the files stay as they are. -/
def write (path : String) (bytes : Bytes) : InMemory (Except IoError Unit) := fun snapshot =>
  match snapshot.files.write path bytes with
  | .error reason => (.error reason, snapshot)
  | .ok files => (.ok (), { snapshot with files := files })

/-- Adds an event to the log. -/
def log (event : Event) : InMemory Unit := fun snapshot =>
  ((), { snapshot with log := snapshot.log ++ [event] })

instance : Workspace InMemory where
  isFile path := fun snapshot => (snapshot.files.isFile path, snapshot)
  read path := fun snapshot => (snapshot.files.read path, snapshot)
  write := write
  log := log

end InMemory

end DeepScope
