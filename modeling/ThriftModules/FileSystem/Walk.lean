import ThriftModules.FileSystem.Operations

/-!
# Walking a directory tree

* `WalkItem` : an entry that a walk meets, with the path that leads to it;
* `walk` : a path and all below it, each directory before what it holds, siblings by name; links below the start are not
  followed, a link at the start is; the path limit is assumed not to stop it;
* `walkedFiles`, `walkedDirs` : the regular files and the directories of a walk.
-/

namespace ThriftModules.FileSystem

set_option autoImplicit false

structure WalkItem where
  path : Path
  entry : Entry
deriving DecidableEq, Repr

structure WalkError where
  path : Path
  cause : OsError
deriving DecidableEq, Repr

def WalkError.message (e : WalkError) : Text :=
  "IO error for operation on ".toList ++ e.path.display ++ ": ".toList ++ e.cause.message

/-- What lies below the directory `dir`, which `path` leads to, down to `depth` levels. The walk goes by the entries of
each directory and looks up none of the paths that it reports: it is assumed that a tree lies within the path limit, so
that no directory of it is too deep to open by its path. -/
def walkBelow (fs : FileSystem) : Nat → Location → Path → List WalkItem
  | 0, _, _ => []
  | depth + 1, dir, path =>
    (fs.children dir).flatMap fun name =>
      let here := Path.join path name
      match fs.find? (name :: dir) with
      | none => []
      | some .directory => ⟨here, .directory⟩ :: walkBelow fs depth (name :: dir) here
      | some entry => [⟨here, entry⟩]

/-- A number of levels that no tree of `fs` exceeds. -/
def maxDepth (fs : FileSystem) : Nat := (fs.entries.map (·.1.length)).foldl max 0 + 1

def below (fs : FileSystem) (dir : Location) (path : Path) : List WalkItem := fs.walkBelow fs.maxDepth dir path

/-- A path and all below it. -/
def walk (fs : FileSystem) (root : Path) : Except WalkError (List WalkItem) :=
  match fs.lstat root with
  | .error e => .error ⟨root, e⟩
  | .ok (loc, .directory) => .ok (⟨root, .directory⟩ :: fs.below loc root)
  | .ok (_, .link target) =>
    match fs.stat root with
    | .error e => .error ⟨root, e⟩
    | .ok (loc, .directory) => .ok (⟨root, .link target⟩ :: fs.below loc root)
    | .ok _ => .ok [⟨root, .link target⟩]
  | .ok (_, entry) => .ok [⟨root, entry⟩]

def WalkItem.dir? (item : WalkItem) : Option Path :=
  match item.entry with
  | .directory => some item.path
  | _ => none

def WalkItem.file? (item : WalkItem) : Option Path :=
  match item.entry with
  | .file _ _ => some item.path
  | _ => none

def walkedDirs (fs : FileSystem) (root : Path) : Except WalkError (List Path) :=
  (fs.walk root).map (List.filterMap WalkItem.dir?)

def walkedFiles (fs : FileSystem) (root : Path) : Except WalkError (List Path) :=
  (fs.walk root).map (List.filterMap WalkItem.file?)

end ThriftModules.FileSystem
