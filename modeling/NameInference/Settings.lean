import NameInference.CallGuard
import NameInference.Text

/-!
# Settings

What a session is told from outside: the version of the language, where modules and descriptors are
looked for, how their files are named, and the bounds on executions.
-/

namespace NameInference

/-- A version of the language. -/
structure Version where
  major : Nat := 3
  minor : Nat := 8
  deriving DecidableEq, Repr, Inhabited

/-- Why a text is no version. -/
inductive VersionError where
  | invalid (text : Text)
  | unsupported (text : Text)
  deriving DecidableEq

namespace VersionError

/-- The message, up to its first zero byte. -/
def message (e : VersionError) : Text :=
  Text.untilZero <|
    match e with
    | invalid text =>
      "invalid language version '" ++ text ++ "' (expected MAJOR or MAJOR.MINOR)"
    | unsupported text => "unsupported language version '" ++ text ++ "'"

end VersionError

namespace Version

/-- The version with a dot between its numbers. -/
def text (v : Version) : Text := Text.ofNat v.major ++ [0x2E] ++ Text.ofNat v.minor

/-- Whether a version is later than another. -/
def isNewerThan (v w : Version) : Bool :=
  w.major < v.major || (v.major == w.major && w.minor < v.minor)

/-- A number of one to four digits. -/
def number? (digits : Text) : Option Nat :=
  if digits.isEmpty || digits.length > 4 || !digits.all Byte.isDigit then none
  else some (digits.foldl (fun n d => n * 10 + (d - 0x30).toNat) 0)

/-- Reads `MAJOR` or `MAJOR.MINOR`; versions before the second one are not supported. -/
def parse (text : Text) : Except VersionError Version := do
  let version? : Option Version :=
    match Text.cutFirst? 0x2E text with
    | none => do return ⟨← number? text, 0⟩
    | some (major, minor) => do return ⟨← number? major, ← number? minor⟩
  match version? with
  | none => throw (.invalid text)
  | some version => if version.major < 2 then throw (.unsupported text) else return version

end Version

/-- What a session is told from outside. -/
structure Settings where
  version : Version := {}
  searchPaths : List Text := []
  descriptorRoot : Text := []
  descriptorExtension : Text := ".pyi"
  implementationExtension : Text := ".py"
  sharedVersionMarker : Text := "2and3"
  stubPackageSuffix : Text := "-stubs"
  limits : CallLimits := {}
  deriving Inhabited

/-- Values of environment variables. -/
abbrev Environment := List (Text × Text)

namespace Environment

/-- The value of a variable that is set and not empty. -/
def get? (environment : Environment) (name : String) : Option Text :=
  (environment.lookup (Text.ofString name)).filter (!·.isEmpty)

end Environment

namespace Settings

/-- The settings that the environment asks for. -/
def ofEnvironment (environment : Environment) : Except VersionError Settings := do
  let version ← match environment.get? "PYINFER_PYTHON_VERSION" with
    | none => pure {}
    | some text => Version.parse text
  return {
    version
    descriptorRoot := (environment.get? "PYINFER_DESCRIPTOR_ROOT").getD []
    searchPaths := match environment.get? "PYINFER_PATH" with
      | none => []
      | some paths => (paths.splitOn 0x3A).filter (!·.isEmpty) }

end Settings

end NameInference
