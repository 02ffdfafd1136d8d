import DeepScope.Batch.Run

namespace DeepScope

/-- What the arguments ask for. -/
structure Arguments where
  files : List String
  verbosity : Nat
  encoding : Option String
  noHeader : Bool
  noCharset : Bool
deriving DecidableEq, Repr

/-- What the program is called for. -/
inductive Invocation where
  | transform (arguments : Arguments)
  | help
  | version
  | misuse
deriving DecidableEq, Repr

namespace Arguments

/-- Nothing is asked for yet. -/
def none : Arguments := ⟨[], 0, Option.none, false, false⟩

/-- The end of the arguments: there must be files, and each must have a name. -/
def finish (arguments : Arguments) : Invocation :=
  if arguments.files.isEmpty || arguments.files.any String.isEmpty then .misuse
  else .transform arguments

/-- Reads the letters of short options. The first one that is not `v` decides. -/
def readLetters (arguments : Arguments) : List Char → Except Invocation Arguments
  | [] => .ok arguments
  | c :: rest =>
    if c = 'v' then readLetters { arguments with verbosity := arguments.verbosity + 1 } rest
    else if c = 'h' then .error .help
    else if c = 'V' then .error .version
    else .error .misuse

/-- Sets an option that may be given only once and takes no value. -/
def readFlag (arguments : Arguments) (name : String) : Except Invocation Arguments :=
  match name with
  | "help" => .error .help
  | "version" => .error .version
  | "verbose" => .ok { arguments with verbosity := arguments.verbosity + 1 }
  | "no-header" =>
    if arguments.noHeader then .error .misuse else .ok { arguments with noHeader := true }
  | "no-charset" =>
    if arguments.noCharset then .error .misuse else .ok { arguments with noCharset := true }
  | _ => .error .misuse

/-- Sets the encoding, which may be given only once. -/
def readEncoding (arguments : Arguments) (label : String) : Except Invocation Arguments :=
  if arguments.encoding.isSome then .error .misuse
  else .ok { arguments with encoding := some label }

/-- Whether a text cannot be the value of the option before it. -/
def looksLikeOption (text : List Char) : Bool :=
  match text with
  | '-' :: _ :: _ => true
  | _ => false

/-- Goes on with the arguments of one step, or ends with what it decided. -/
def andThen (step : Except Invocation Arguments) (next : Arguments → Invocation) : Invocation :=
  match step with
  | .error invocation => invocation
  | .ok arguments => next arguments

/-- Reads arguments from left to right. Behind two hyphens there are only
    files. -/
def read (arguments : Arguments) : List String → Invocation
  | [] => arguments.finish
  | argument :: rest =>
    match argument.toList with
    | ['-', '-'] => finish { arguments with files := arguments.files ++ rest }
    | '-' :: '-' :: option =>
      let name := String.ofList (option.takeWhile (· ≠ '='))
      match option.dropWhile (· ≠ '=') with
      | _ :: value =>
        if name = "encoding" then
          andThen (arguments.readEncoding (String.ofList value)) fun next => next.read rest
        else .misuse
      | [] =>
        if name = "encoding" then
          match rest with
          | [] => .misuse
          | value :: others =>
            if looksLikeOption value.toList then .misuse
            else andThen (arguments.readEncoding value) fun next => next.read others
        else andThen (arguments.readFlag name) fun next => next.read rest
    | '-' :: c :: letters =>
      andThen (arguments.readLetters (c :: letters)) fun next => next.read rest
    | _ =>
      if argument.isEmpty then .misuse
      else read { arguments with files := arguments.files ++ [argument] } rest

/-- What the arguments mean for the transformation of files. -/
def config (arguments : Arguments) : Config :=
  ⟨if arguments.noHeader then Option.none else some defaultHeader, !arguments.noCharset,
    arguments.encoding⟩

end Arguments

/-- Reads a command line. -/
def Invocation.ofArguments (arguments : List String) : Invocation :=
  Arguments.none.read arguments

/-- How the program ends: its exit code, and the failure that it reports. -/
structure Exit where
  code : Nat
  failure : Option String
deriving DecidableEq, Repr

/-- Does what the program is called for. -/
def Invocation.execute {m : Type → Type} [Monad m] [Workspace m] (invocation : Invocation) :
    m Exit := do
  match invocation with
  | .help | .version => pure ⟨0, none⟩
  | .misuse => pure ⟨2, none⟩
  | .transform arguments =>
    match ← run arguments.config arguments.files with
    | .ok _ => pure ⟨0, none⟩
    | .error e => pure ⟨1, some ("Error: " ++ e.message)⟩

end DeepScope
