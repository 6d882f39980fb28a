import NameInference.Command.Run

/-!
# The program

Takes a snapshot of the sources that a run may need, runs the program on it, and writes what the run
says. Below the working directory and below every folder that is named by an absolute path, sources
are read whole; of other files only the names matter.
-/

namespace NameInference

/-- The bytes of a file, none if it cannot be read. -/
def fileBytes (path : String) : IO Text := do
  try return (← IO.FS.readBinFile path).toList
  catch _ => return []

/-- A path as the system takes it, empty if it is not well-formed. -/
def pathString (path : Text) : String := (String.fromUTF8? ⟨path.toArray⟩).getD ""

/-- Whether a file may hold a module. -/
def isSource (settings : Settings) (name : Text) : Bool :=
  name.endsWith settings.implementationExtension || name.endsWith settings.descriptorExtension

/-- Adds what is below a folder, hidden folders apart; `depth` bounds how deep folders are nested.
-/
def addTree (settings : Settings) (files : Files) (names : List Text) (folder : String)
    (depth : Nat) : IO Files := do
  match depth with
  | 0 => return files
  | depth + 1 =>
    let mut files := files.addFolder names
    let entries ← try (← IO.FS.realPath folder).readDir catch _ => pure #[]
    for entry in entries do
      let name := Text.ofString entry.fileName
      let path := folder ++ "/" ++ entry.fileName
      if ← entry.path.isDir then
        if !name.startsWith "." then
          files ← addTree settings files (names ++ [name]) path depth
      else if isSource settings name then
        files := files.addFile (names ++ [name]) (← fileBytes path)
      else files := files.addFile (names ++ [name]) []
    return files

/-- The folders that absolute paths in the options and the settings lead to. -/
def absoluteFolders (options : Options) (settings : Settings) : List Text :=
  let folders := settings.descriptorRoot :: settings.searchPaths ++
    options.inputs.map Files.directoryOf
  (folders.filter (·.startsWith [0x2F])).eraseDups

/-- The files that a run may need. -/
def snapshot (options : Options) (settings : Settings) : IO Files := do
  let mut files ← addTree settings {} [] "." 64
  for folder in absoluteFolders options settings do
    files ← addTree settings files (Files.rootNames ++ Files.components folder)
      (pathString folder) 64
  for input in options.inputs do
    if files.isFile input then
      files := (files.write? input (← fileBytes (pathString input))).getD files
  return files

/-- The variables of the environment that matter. -/
def readEnvironment : IO Environment := do
  let names := ["PYINFER_DESCRIPTOR_ROOT", "PYINFER_PATH", "PYINFER_PYTHON_VERSION",
    "PYINFER_COLOR", "NO_COLOR"]
  names.filterMapM fun name => do
    return (← IO.getEnv name).map fun value => (Text.ofString name, Text.ofString value)

/-- Writes the log of a run, if it has one. -/
def writeLog (options : Options) (outcome : Outcome) : IO Unit := do
  if let some content := outcome.files.content? options.logPath then
    IO.FS.createDirAll (pathString (Files.directoryOf options.logPath))
    IO.FS.writeBinFile (pathString options.logPath) ⟨content.toArray⟩

/-- Runs the program in the world. -/
def runProgram (args : List String) : IO UInt32 := do
  let arguments := args.map Text.ofString
  let environment ← readEnvironment
  let (options, fault) := Options.ofArguments arguments
  let files ← match fault, options.settings environment with
    | none, .ok settings => snapshot options settings
    | _, _ => pure {}
  let err ← IO.getStderr
  let outcome := run arguments environment files (← err.isTty)
  (← IO.getStdout).write ⟨outcome.out.toArray⟩
  err.write ⟨outcome.err.toArray⟩
  if options.logged then writeLog options outcome
  return outcome.status.toUInt32

end NameInference

def main (args : List String) : IO UInt32 := NameInference.runProgram args
