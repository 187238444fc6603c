import ThriftModules.Idl.Includes
import ThriftModules.FileSystem.Walk

/-!
# Include search and included files

* `SourceError` : why a source could not be read or resolved, with its message;
* `SearchPath` : the directories in which includes are looked for, in order;
* `SearchPath.discover` : a directory and all below it;
* `SearchPath.resolve` : the first file of a name;
* `resolveIncludes` : the edges of a source, or the failure of the first include that has one.
-/

namespace ThriftModules.Idl

set_option autoImplicit false

open FileSystem (WalkError)

/-! ## Failures -/

/-- Why a source could not be read or resolved. -/
inductive SourceError where
  /-- The file could not be read. -/
  | unreadable (path : Path) (cause : ReadError)
  /-- The directories below `root` could not be listed. -/
  | unlistable (root : Path) (cause : WalkError)
  /-- The source known as `origin` declares `found` distinct namespaces. -/
  | namespaceCount (origin : Text) (found : Nat)
  /-- No directory holds the included file. -/
  | unresolved (name : Text)
deriving DecidableEq, Repr

def SourceError.message : SourceError → Text
  | .unreadable path cause => ["Failed to read Thrift file ".toList, path.display, ": ".toList, cause.message].flatten
  | .unlistable root cause =>
    ["Failed to list include directories under ".toList, root.display, ": ".toList, cause.message].flatten
  | .namespaceCount origin found =>
    ["incorrect or missing JavaScript namespace in Thrift file ".toList, origin, " (".toList, Text.ofNat found,
      " distinct declarations)".toList].flatten
  | .unresolved name => ["unable to resolve include file ".toList, name, ".thrift".toList].flatten

/-! ## Sources on disk -/

/-- The source in the file at `path`. -/
def readSource (fs : FileSystem) (path : Path) : Except SourceError Source :=
  match fs.readText path with
  | .ok text => .ok (.ofText path text)
  | .error e => .error (.unreadable path e)

/-- The namespace of a source that messages call `origin`. -/
def Source.ownNamespace (s : Source) (origin : Text) : Except SourceError Namespace :=
  match s.namespace? with
  | .ok value => .ok value
  | .error found => .error (.namespaceCount origin found)

/-! ## Search -/

/-- The directories in which includes are looked for, in order. -/
structure SearchPath where
  dirs : List Path
deriving DecidableEq, Repr

namespace SearchPath

/-- The directory at `root` and all directories below it, each before what it holds, siblings by name. -/
def discover (fs : FileSystem) (root : Path) : Except SourceError SearchPath :=
  match fs.walkedDirs root with
  | .ok dirs => .ok ⟨dirs⟩
  | .error e => .error (.unlistable root e)

/-- The name of the file that an include stands for. -/
def fileOf (name : Text) : OsText := OsText.ofText name ++ ".thrift".toList

/-- The first file that the include `name` can stand for. -/
def resolve (search : SearchPath) (fs : FileSystem) (name : Text) : Except SourceError Path :=
  match (search.dirs.map (Path.join · (fileOf name))).find? fs.isFile with
  | some path => .ok path
  | none => .error (.unresolved name)

end SearchPath

def resolveInclude (search : SearchPath) (fs : FileSystem) (name : Text) : Except SourceError Edge := do
  let path ← search.resolve fs name
  let included ← readSource fs path
  let target ← included.ownNamespace name
  return ⟨name, path, target⟩

/-- The edges of a source; the includes are resolved by name, and the first failure is the answer. -/
def resolveIncludes (search : SearchPath) (fs : FileSystem) (source : Source) : Except SourceError Includes := do
  let edges ← source.includes.toList.mapM (resolveInclude search fs)
  return .ofEdges edges

end ThriftModules.Idl
