import DeepScope.Error
import DeepScope.Files.Tree
import DeepScope.Rule.Reader
import DeepScope.Selector.Writer

namespace DeepScope

/-- Why a file could not be transformed. -/
inductive FileError where
  | badName (path : String)
  | unreadable (path : String) (reason : IoError)
  | unparsable (path : String) (reason : Error)
  | unwritable (path : String) (reason : IoError)
deriving DecidableEq, Repr

/-- The wording of each reason. -/
def FileError.message : FileError → String
  | badName path => path ++ " does not have a .css file name"
  | unreadable path reason => "failed to read " ++ path ++ ": " ++ reason.message
  | unparsable path reason => "failed to parse " ++ path ++ ": " ++ reason.message
  | unwritable path reason => "failed to write " ++ path ++ ": " ++ reason.message

/-- How much an event matters, from most to least. -/
inductive Level where
  | error
  | warn
  | info
  | debug
  | trace
deriving DecidableEq, Repr

/-- Whether events of a level are shown. At first those of interest to anyone
    are; the first step of verbosity adds the next level, and the second one the
    last. -/
def Level.isShown (verbosity : Nat) : Level → Bool
  | error | warn | info => true
  | debug => 1 ≤ verbosity
  | trace => 2 ≤ verbosity

/-- The name that a level has in a log. -/
def Level.name : Level → String
  | error => "ERROR"
  | warn => "WARN"
  | info => "INFO"
  | debug => "DEBUG"
  | trace => "TRACE"

/-- Something that happened during a run. -/
inductive Event where
  | charsetUsed (label : String)
  | note (note : Note)
  | parsed (rules : Nat) (path : String)
  | rootedKept (selector : Selector)
  | wrote (path : String)
  | missing (path : String)
  | failed (reason : FileError)
  | transformed (path : String) (changed kept : Nat)
deriving DecidableEq, Repr

namespace Event

/-- The level of each event. -/
def level : Event → Level
  | charsetUsed _ => .debug
  | note .charsetIgnored => .debug
  | note (.keptVerbatim _) => .trace
  | parsed .. => .debug
  | rootedKept _ => .trace
  | wrote _ => .debug
  | missing _ => .warn
  | failed _ => .error
  | transformed .. => .info

/-- The wording of each event. -/
def message : Event → String
  | charsetUsed label => "using encoding \"" ++ label ++ "\" from @charset"
  | note .charsetIgnored => "ignoring @charset rule that is not at the start of the stylesheet"
  | note (.keptVerbatim rule) => "keeping the block of @" ++ rule ++ " verbatim"
  | parsed rules path => "parsed " ++ toString rules ++ " top-level rules from " ++ path
  | rootedKept selector => "keeping rooted selector " ++ selector.text
  | wrote path => "wrote " ++ path
  | missing path => path ++ " does not exist, skipping"
  | failed reason => reason.message
  | transformed path changed kept =>
    path ++ ": rewrote " ++ toString changed ++ " selectors, kept " ++ toString kept

end Event

end DeepScope
