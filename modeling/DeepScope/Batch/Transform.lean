import DeepScope.Batch.Workspace
import DeepScope.Files.Path
import DeepScope.StyleSheet.Bytes
import DeepScope.StyleSheet.Scope
import DeepScope.StyleSheet.Writer

namespace DeepScope

/-- How the files of a run are transformed. -/
structure Config where
  header : Option String
  emitCharset : Bool
  hint : Option String
deriving DecidableEq, Repr

/-- The header that is written unless another one, or none, is asked for. -/
def defaultHeader : String :=
  "This file was generated by CssTransform: https://github.com/KarstenB/csstransform"

/-- How outputs are written under a configuration. -/
def Config.writeOptions (config : Config) (layout : Layout) : WriteOptions :=
  ⟨layout, config.emitCharset, config.header⟩

/-- What was done with a file. -/
structure FileReport where
  input : String
  outputs : OutputPaths
  changed : Nat
  kept : Nat
deriving DecidableEq, Repr

/-- The texts of the outputs for one stylesheet, and what scoping did to it. -/
structure Rendering where
  minified : String
  deep : String
  deepMinified : String
  report : ScopeReport
deriving DecidableEq, Repr

/-- Renders everything before anything is written. -/
def Rendering.ofSheet (config : Config) (sheet : StyleSheet) : Rendering :=
  let (deep, report) := sheet.scope
  ⟨sheet.serialize (config.writeOptions .minified), deep.serialize (config.writeOptions .pretty),
    deep.serialize (config.writeOptions .minified), report⟩

/-- The outputs with their texts, in the order in which they are written. -/
def Rendering.files (rendering : Rendering) (outputs : OutputPaths) : List (String × String) :=
  [(outputs.minified, rendering.minified), (outputs.deep, rendering.deep),
    (outputs.deepMinified, rendering.deepMinified)]

section

variable {m : Type → Type} [Monad m] [Workspace m]

/-- Logs events in order. -/
def logAll : List Event → m Unit
  | [] => pure ()
  | event :: rest => do
    Workspace.log event
    logAll rest

/-- Writes texts one after the other, up to the first that cannot be
    written. -/
def writeAll : List (String × String) → m (Except FileError Unit)
  | [] => pure (.ok ())
  | (path, text) :: rest => do
    match ← Workspace.write path (Utf8.encode text.toList) with
    | .error reason => pure (.error (.unwritable path reason))
    | .ok () =>
      Workspace.log (.wrote path)
      writeAll rest

/-- The events of reading a stylesheet from bytes: which `@charset` rule decided
    the encoding, and the notes of the reader. -/
def readingEvents (bytes : Bytes) (hint : Option String) : List Event :=
  let source := match (EncodingSource.ofBytes bytes hint).1 with
    | .charsetRule label => [Event.charsetUsed label]
    | _ => []
  source ++ (StyleSheet.parseBytesNoted bytes hint).1.map Event.note

/-- Transforms a file whose outputs and contents are known. -/
def transformBytes (config : Config) (input : String) (outputs : OutputPaths) (bytes : Bytes) :
    m (Except FileError FileReport) := do
  logAll (readingEvents bytes config.hint)
  match StyleSheet.parseBytes bytes config.hint with
  | .error reason => pure (.error (.unparsable input reason))
  | .ok sheet =>
    Workspace.log (.parsed sheet.rules.length input)
    let rendering := Rendering.ofSheet config sheet
    logAll (rendering.report.rooted.map Event.rootedKept)
    match ← writeAll (rendering.files outputs) with
    | .error reason => pure (.error reason)
    | .ok () =>
      pure (.ok ⟨input, outputs, rendering.report.changed, rendering.report.kept⟩)

/-- Transforms one file. Nothing is written unless its name is acceptable and it
    can be read as a stylesheet. -/
def transformFile (config : Config) (input : String) : m (Except FileError FileReport) := do
  match OutputPaths.ofInput input with
  | none => pure (.error (.badName input))
  | some outputs =>
    match ← Workspace.read input with
    | .error reason => pure (.error (.unreadable input reason))
    | .ok bytes => transformBytes config input outputs bytes

end

end DeepScope
