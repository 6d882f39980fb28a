import NameInference.Settings
import NameInference.Token

/-!
# Options of the command line

Arguments are read from left to right. A word that begins with a dash is an option, alone or with a
value behind an equals sign, until `--` ends the options; every other word is an input. Reading
stops at the first fault and keeps what was read up to it.
-/

namespace NameInference

/-- When faults are shown in color. -/
inductive ColorMode where
  | auto | always | never
  deriving DecidableEq, Repr, Inhabited

/-- What is asked about a source. -/
inductive QueryMode where
  | infer | goto | signatures | issues
  deriving DecidableEq, Repr, Inhabited

/-- What the command line asks for. -/
structure Options where
  showHelp : Bool := false
  metrics : Bool := false
  metricsJson : Bool := false
  position : Option Position := none
  name : Text := []
  mode : QueryMode := .infer
  /-- How many options that choose a mode were given. -/
  modeCount : Nat := 0
  version : Text := []
  searchPaths : List Text := []
  descriptorRoot : Text := []
  inputs : List Text := []
  color : ColorMode := .auto
  logFolder : Text := "."
  logged : Bool := false
  deriving Inhabited

/-- Why the arguments cannot be used. -/
inductive OptionFault where
  | invalidValue (argument : Text)
  | unknownOption (argument : Text)
  | conflictingModes
  deriving DecidableEq

namespace ColorMode

/-- The name under which a mode is shown. -/
def label : ColorMode → String
  | auto => "Auto"
  | always => "Always"
  | never => "Never"

/-- The mode that a word chooses. -/
def ofWord? (word : Text) : Option ColorMode :=
  if word == "auto" then some auto
  else if word == "always" then some always
  else if word == "never" then some never
  else none

end ColorMode

namespace QueryMode

/-- The name under which a mode is shown. -/
def label : QueryMode → String
  | infer => "Infer"
  | goto => "Goto"
  | signatures => "Signatures"
  | issues => "Issues"

/-- Whether a mode answers about a position. -/
def needsPosition : QueryMode → Bool
  | goto | signatures => true
  | infer | issues => false

end QueryMode

/-- A line of the program's own messages. -/
def noticeLine (message : Text) : Text := "pyinfer: " ++ message ++ "\n"

namespace OptionFault

/-- What is said about the fault. -/
def message : OptionFault → Text
  | invalidValue argument => "invalid value in '" ++ argument ++ "'"
  | unknownOption argument => "unknown option '" ++ argument ++ "'"
  | conflictingModes => Text.ofString
      "use at most one of --goto, --signatures and --issues; --goto and --signatures need --at"

end OptionFault

namespace Options

/-- The largest line or column. -/
def largestNumber : Nat := 2147483647

/-- A line or a column: a decimal number from one on. -/
def number? (digits : Text) : Option Nat :=
  if digits.isEmpty || !digits.all Byte.isDigit then none
  else
    let n := digits.foldl (fun n d => n * 10 + (d - 0x30).toNat) 0
    if 0 < n && n ≤ largestNumber then some n else none

/-- Reads `LINE:COL`. -/
def position? (value : Text) : Option Position := do
  let (line, col) ← Text.cutFirst? 0x3A value
  return ⟨← number? line, ← number? col⟩

/-- Chooses what is asked. -/
def choose (mode : QueryMode) (options : Options) : Options :=
  { options with mode, modeCount := options.modeCount + 1 }

/-- The options that take no value. -/
def flags : List (String × (Options → Options)) :=
  [("-h", fun o => { o with showHelp := true }),
    ("--help", fun o => { o with showHelp := true }),
    ("--goto", choose .goto),
    ("--signatures", choose .signatures),
    ("--issues", choose .issues),
    ("--metrics", fun o => { o with metrics := true }),
    ("--metrics-json", fun o => { o with metricsJson := true }),
    ("--log-infer", fun o => { o with logged := true })]

/-- The options that take a value, with what they do and whether they accept the value. -/
def valued : List (String × (Text → Options → Options × Bool)) :=
  [("--at=", fun value o => match position? value with
      | some position => ({ o with position := some position }, true)
      | none => (o, false)),
    ("--name=", fun value o => ({ o with name := value }, !value.isEmpty)),
    ("--python=", fun value o => ({ o with version := value }, !value.isEmpty)),
    ("--sys-path=", fun value o =>
      ({ o with searchPaths := o.searchPaths ++ [value] }, !value.isEmpty)),
    ("--descriptors=", fun value o => ({ o with descriptorRoot := value }, true)),
    ("--log-path=", fun value o => ({ o with logFolder := value }, true)),
    ("--color=", fun value o => match ColorMode.ofWord? value with
      | some color => ({ o with color }, true)
      | none => (o, false))]

/-- What a flag does. -/
def flag? (argument : Text) : Option (Options → Options) :=
  (flags.find? fun (name, _) => argument == Text.ofString name).map Prod.snd

/-- What an option with its value does. -/
def value? (argument : Text) : Option (Options → Options × Bool) :=
  (valued.find? fun (name, _) => argument.startsWith (Text.ofString name)).map fun (name, act) =>
    act (argument.drop (Text.ofString name).length)

/-- Whether more than one mode was chosen, or one that lacks its position. -/
def isConflicting (options : Options) : Bool :=
  options.modeCount > 1 || (options.mode.needsPosition && options.position.isNone)

/-- The options at the end of the arguments, and the fault of their combination. -/
def checked (options : Options) : Options × Option OptionFault :=
  (options, if options.isConflicting then some .conflictingModes else none)

/-- Reads further arguments. -/
def read (options : Options) : List Text → Options × Option OptionFault
  | [] => options.checked
  | argument :: rest =>
    if argument == "--" then { options with inputs := options.inputs ++ rest }.checked
    else match flag? argument with
      | some act => (act options).read rest
      | none => match value? argument with
        | some act =>
          match act options with
          | (options, true) => options.read rest
          | (options, false) => (options, some (.invalidValue argument))
        | none =>
          if argument.head? == some 0x2D then (options, some (.unknownOption argument))
          else { options with inputs := options.inputs ++ [argument] }.read rest

/-- The options that arguments ask for, and why they cannot be used. -/
def ofArguments (arguments : List Text) : Options × Option OptionFault :=
  ({} : Options).read arguments

/-- The settings of the environment, overridden by those of the command line. -/
def settings (options : Options) (environment : Environment) : Except VersionError Settings := do
  let base ← Settings.ofEnvironment environment
  let version ← if options.version.isEmpty then pure base.version else Version.parse options.version
  return { base with
    version
    searchPaths := base.searchPaths ++ options.searchPaths
    descriptorRoot :=
      if options.descriptorRoot.isEmpty then base.descriptorRoot
      else options.descriptorRoot }

/-- The help text. -/
def usage : Text := Text.ofString "pyinfer [options] file

Infers the possible values of a name without running the program.

Options:
  -h, --help             Print this help and exit
  --at=<line>:<col>      Query position (1-based line and column)
  --name=<ident>         Identifier to query (default: the name at --at)
  --goto                 Print the definitions the name refers to
  --signatures           Print call signatures of the inferred values
  --issues               Report argument issues of every call (default without --at)
  --python=<M.m>         Language version used to pick descriptors (default: 3.8)
  --sys-path=<dir>       Add a module search path (repeatable)
  --descriptors=<dir>    Root of the interface descriptor repository
  --metrics              Print analysis metrics summary
  --metrics-json         Print analysis metrics in JSON
  --log-path=<dir>       Directory where logs are written (default: .)
  --log-infer            Write the inference trace to <dir>/pyinfer.infer.log
  --color=<mode>         Color diagnostics: always|never|auto (default: auto)
  --                     End of options
"

end Options

end NameInference
