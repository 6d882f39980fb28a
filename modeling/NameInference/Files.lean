import NameInference.Text

/-!
# Files

A snapshot of files and folders. Paths are relative to the working directory, or to the root if they
begin with a slash; blank components and `.` stand for the folder before them, `..` for the folder
around it. Of the folders around the working directory it is only known that they are there.
-/

namespace NameInference

/-- What stands at a place. -/
inductive FileEntry where
  | file (content : Text)
  | folder

/-- Contents of files by the names that lead to them, and the names that lead to each folder but the
working directory. The names of what is below the root begin with a slash. -/
structure Files where
  contents : List (List Text × Text) := []
  folders : List (List Text) := []
  deriving Inhabited

/-- Why a folder cannot be made. -/
inductive FolderFault where
  | notFolder
  | taken
  deriving DecidableEq

namespace FolderFault

/-- What is said about the fault. -/
def message : FolderFault → Text
  | notFolder => "Not a directory"
  | taken => "File exists"

end FolderFault

namespace Files

/-- The names that lead to the root. -/
def rootNames : List Text := [[0x2F]]

/-- The component that leads to the folder around a folder. -/
def parentName : Text := ".."

/-- Whether the names lead to the working directory or to a folder around it. -/
def isAbove (names : List Text) : Bool := names.all (· == parentName)

/-- The names of the folder around a folder; the root is around itself. -/
def around (names : List Text) : List Text :=
  if isAbove names then names ++ [parentName]
  else if names == rootNames then names
  else names.dropLast

/-- The entry that the names lead to. -/
def entry? (files : Files) (names : List Text) : Option FileEntry :=
  if isAbove names || files.folders.contains names then some .folder
  else (files.contents.lookup names).map .file

/-- Whether the names lead to a folder. -/
def hasFolder (files : Files) (names : List Text) : Bool :=
  match files.entry? names with
  | some .folder => true
  | _ => false

/-- Follows the components of a path from a folder; all but the last have to be folders. -/
def follow (files : Files) (here : List Text) : List Text → Option (List Text)
  | [] => some here
  | component :: rest =>
    if !files.hasFolder here then none
    else if component.isEmpty || component == "." then files.follow here rest
    else if component == parentName then files.follow (around here) rest
    else files.follow (here ++ [component]) rest

/-- The names that a path stands for. A path ends at its first zero byte. -/
def resolve? (files : Files) (path : Text) : Option (List Text) :=
  match path.untilZero with
  | [] => none
  | 0x2F :: rest => files.follow rootNames (rest.splitOn 0x2F)
  | path => files.follow [] (path.splitOn 0x2F)

/-- The content of a file. -/
def content? (files : Files) (path : Text) : Option Text :=
  match (files.resolve? path).bind files.entry? with
  | some (.file content) => some content
  | _ => none

/-- Whether the path leads to a file. -/
def isFile (files : Files) (path : Text) : Bool := (files.content? path).isSome

/-- Whether the path leads to a folder. -/
def isFolder (files : Files) (path : Text) : Bool :=
  ((files.resolve? path).map files.hasFolder).getD false

/-- The content of a file, or why there is none. -/
def read (files : Files) (path : Text) : Except Text Text :=
  match files.content? path with
  | some content => .ok content
  | none => .error ("no such file: " ++ path)

/-- The name of what stands directly in a folder; the root stands in none. -/
def childName? (folder : List Text) (names : List Text) : Option Text :=
  if names.dropLast == folder && names != rootNames then names.getLast? else none

/-- The names of what stands directly in a folder, in ascending order; none if the path leads to no
folder. -/
def list (files : Files) (path : Text) : List Text :=
  match files.resolve? path with
  | none => []
  | some folder =>
    if files.hasFolder folder then
      Text.sort ((files.folders ++ files.contents.map (·.1)).filterMap
        (childName? folder)).eraseDups
    else []

/-- A path below another one. -/
def join (path name : Text) : Text :=
  if path.isEmpty then name
  else if name.isEmpty then path
  else if path.getLast? == some 0x2F then path ++ name
  else path ++ [0x2F] ++ name

/-- The components of a path that name something. -/
def components (path : Text) : List Text :=
  (path.splitOn 0x2F).filter fun c => !c.isEmpty && c != "."

/-- Adds a folder and the folders around it. -/
def addFolder (files : Files) (names : List Text) : Files :=
  ((List.range names.length).map fun n => names.take (n + 1)).foldl (fun files names =>
    if files.folders.contains names then files
    else { files with folders := files.folders ++ [names] }) files

/-- Adds a file and the folders around it. -/
def addFile (files : Files) (names : List Text) (content : Text) : Files :=
  let files := files.addFolder names.dropLast
  { files with contents := (names, content) :: files.contents }

/-- Makes the folders that components lead to from a folder. -/
def makeFolders (files : Files) (here : List Text) : List Text → Except FolderFault Files
  | [] => .ok files
  | component :: rest =>
    if component.isEmpty || component == "." then files.makeFolders here rest
    else if component == parentName then files.makeFolders (around here) rest
    else
      let names := here ++ [component]
      match files.entry? names with
      | some .folder => files.makeFolders names rest
      | some (.file _) => .error (if rest.all (·.isEmpty) then .taken else .notFolder)
      | none => (files.addFolder names).makeFolders names rest

/-- Makes the folder of a path, unless something is there. -/
def makeFolder (files : Files) (path : Text) : Except FolderFault Files :=
  if ((files.resolve? path).bind files.entry?).isSome then .ok files
  else match path with
    | 0x2F :: rest => files.makeFolders rootNames (rest.splitOn 0x2F)
    | path => files.makeFolders [] (path.splitOn 0x2F)

/-- Writes a file in a folder that is there. -/
def write? (files : Files) (path content : Text) : Option Files := do
  let names ← files.resolve? path
  if !files.hasFolder names.dropLast || files.hasFolder names then none
  else some { files with contents := (names, content) :: files.contents.filter (·.1 != names) }

/-- The part of a path before its last slash, empty if there is none. -/
def directoryOf (path : Text) : Text := ((Text.cutLast? 0x2F path).map (·.1)).getD []

/-- The part of a path behind its last slash. -/
def nameOf (path : Text) : Text := ((Text.cutLast? 0x2F path).map (·.2)).getD path

/-- Puts a file at a path and makes the folders around it, where that can be done. -/
def put (files : Files) (path content : Text) : Files :=
  match files.makeFolder (directoryOf path) with
  | .ok files => (files.write? path content).getD files
  | .error _ => files

end Files

end NameInference
