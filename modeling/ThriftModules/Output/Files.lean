import ThriftModules.FileSystem.Walk

/-!
# Generated files

* `OutputError` : why generated files could not be listed, read, removed or written, with its message;
* `listFiles` : the files below a directory whose name is a text with a given suffix (`hasSuffix`);
* `readFiles`, `removeFiles` : files read or removed in order, up to the first failure;
* `writeAtomically` : a file written beside its place and moved there, or not at all.
-/

namespace ThriftModules.Output

set_option autoImplicit false

open FileSystem (DiskM WalkError inspect orFail runOn)

inductive OutputError where
  | wipe (root : Path) (cause : OsError)
  | initialise (dir : Path) (cause : OsError)
  | noParent (path : Path)
  | build (path : Path) (cause : OsError)
  | list (dir : Path) (cause : WalkError)
  | read (file : Path) (cause : ReadError)
  | remove (file : Path) (cause : OsError)
deriving DecidableEq, Repr

def OutputError.message : OutputError → Text
  | .wipe root e => ["Failed to wipe generated source directory ".toList, root.display, ": ".toList, e.message].flatten
  | .initialise dir e =>
    ["can't init generated source directory at ".toList, dir.display, ": ".toList, e.message].flatten
  | .noParent path => ["can't build module ".toList, path.display, ": no parent directory".toList].flatten
  | .build path e => ["can't build module ".toList, path.display, ": ".toList, e.message].flatten
  | .list dir e => ["Failed to list files in ".toList, dir.display, ": ".toList, e.message].flatten
  | .read file e => ["Failed to read ".toList, file.display, ": ".toList, e.message].flatten
  | .remove file e => ["Failed to remove ".toList, file.display, ": ".toList, e.message].flatten

/-- Whether a name is a text that ends in `suffix`. A name that encodes no text has no suffix, not even the empty one. -/
def hasSuffix (suffix : Text) (name : OsText) : Bool := name.toText?.any (Text.endsWith · suffix)

/-- The files at and below `dir` whose name ends in `suffix`, in walk order. -/
def listFiles (fs : FileSystem) (dir : Path) (suffix : Text) : Except OutputError (List Path) :=
  match fs.walkedFiles dir with
  | .ok files => .ok (files.filter fun p => hasSuffix suffix (Path.fileName p))
  | .error e => .error (.list dir e)

def readFiles (fs : FileSystem) (files : List Path) : Except OutputError (List Text) :=
  files.mapM fun file =>
    match fs.readText file with
    | .ok t => .ok t
    | .error e => .error (.read file e)

/-- Files removed in order; those in front of a failing one are gone. -/
def removeFiles : List Path → DiskM OutputError Unit
  | [] => pure ()
  | file :: rest => do
    orFail (.remove file) (FileSystem.removeFile file)
    removeFiles rest

/-- The text put at `path` in one move: a fresh file beside it takes the text and then its place. -/
def writeAtomically (path : Path) (text : Text) : DiskM OutputError Unit := do
  match Path.parent? path with
  | none => throw (.noParent path)
  | some dir =>
    let temp ← orFail (.build path) (FileSystem.makeTemp dir (.text text))
    match runOn (← get) (FileSystem.renameFile temp path) with
    | (.ok (), fs) => set fs
    | (.error e, fs) => do
      set (fs.erase temp)
      throw (.build path e)

end ThriftModules.Output
