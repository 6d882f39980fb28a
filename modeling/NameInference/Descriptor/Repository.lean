import NameInference.Files
import NameInference.Settings
import NameInference.Text.Table

/-!
# Where modules and descriptors are found

A module `m` of a folder is the package `m/__init__` or the file `m`, each with the extension of its
kind. Below the descriptor root, folders are named for the versions of the language they are meant
for.
-/

namespace NameInference

/-- The file of a module that was found. -/
structure LocatedModule where
  path : Text
  isPackage : Bool
  deriving DecidableEq, Inhabited

/-- The name of the file that makes a folder a package. -/
def packageFile (extension : Text) : Text := "__init__" ++ extension

namespace Files

/-- The file of a module in a folder, the package first. -/
def locate? (files : Files) (folder name extension : Text) : Option LocatedModule :=
  let package := join (join folder name) (packageFile extension)
  let module := join folder (name ++ extension)
  if files.isFile package then some ⟨package, true⟩
  else if files.isFile module then some ⟨module, false⟩
  else none

/-- The name of a module that an entry of a folder stands for. -/
def moduleName? (files : Files) (folder extension entry : Text) : Option Text :=
  let path := join folder entry
  if files.isFolder path then
    if files.isFile (join path (packageFile extension)) then some entry else none
  else if entry.endsWith extension then
    some (entry.dropEnd extension.length) |>.filter (· != "__init__")
  else none

/-- The modules of a folder in ascending order. -/
def submodules (files : Files) (folder extension : Text) : List Text :=
  (Text.sort ((files.list folder).filterMap (files.moduleName? folder extension))).eraseDups

/-- The descriptor that an entry of a folder stands for, with its name. -/
def descriptorEntry? (files : Files) (folder extension entry : Text) : Option (Text × Text) :=
  let path := join folder entry
  if files.isFolder path then
    let package := join path (packageFile extension)
    if files.isFile package then some (entry, package) else none
  else if entry.length > extension.length && entry.endsWith extension then
    some (entry.dropEnd extension.length, path) |>.filter (·.1 != "__init__")
  else none

/-- The descriptors of a folder by name. -/
def descriptors (files : Files) (folder extension : Text) : Table Text :=
  Table.ofList ((files.list folder).filterMap (files.descriptorEntry? folder extension))

/-- The folders below a descriptor root that a version of the language reads, the least specific
first. -/
def versionFolders (files : Files) (root : Text) (settings : Settings) : List Text :=
  let major := Text.ofNat settings.version.major
  let minors := (List.range (settings.version.minor + 1)).map fun minor =>
    major ++ [0x2E] ++ Text.ofNat minor
  [Text.ofString "stdlib", Text.ofString "third_party"].flatMap fun category =>
    ((settings.sharedVersionMarker :: major :: minors).map (join (join root category))).filter
      files.isFolder

/-- The descriptors below the descriptor root by name; the most specific one counts. -/
def descriptorTable (files : Files) (settings : Settings) : Table Text :=
  if settings.descriptorRoot.isEmpty then []
  else (files.versionFolders settings.descriptorRoot settings).foldl
    (fun table folder => table.override (files.descriptors folder settings.descriptorExtension)) []

end Files

/-- The module whose descriptor describes the named one. -/
def describedBy (name : Text) : Text :=
  if name == "_collections" then "collections"
  else if name == "_socket" then "socket"
  else name

end NameInference
