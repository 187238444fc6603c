import ThriftModules.FileSystem.Basic
import ThriftModules.FileSystem.Fault

/-!
# From paths to entries

* `followUntilLink`, `follow` : the location that names lead to, symbolic links followed;
* `stat` : the location and the entry that a path stands for, its last link followed;
* `Slot`, `slot` : the place that a path names, an entry of a directory or a directory itself, its last link not
  followed;
* `lstat` : the entry at that place.

A name is at most as long as the file system allows, a path less than 4096 bytes, and a lookup follows at most 40 links.
-/

namespace ThriftModules.FileSystem

set_option autoImplicit false

/-! ## Limits -/

/-- The length in bytes that a path must not reach. -/
def maxPath : Nat := 4096

/-- The number of links that a lookup follows. -/
def maxLinks : Nat := 40

/-! ## Following names -/

/-- Where a path starts that is met in the directory `at`. -/
def startOf (dir : Location) (p : Path) : Location := if Path.isAbsolute p then [] else dir

/-- The location that `names` lead to from a directory, where `atLink` goes on at a link, with the directory that holds
it, its target and the names behind it. -/
def followUntilLink (fs : FileSystem) (atLink : Location → Path → List OsText → Except OsError Location) :
    Location → List OsText → Except OsError Location
  | dir, [] => .ok dir
  | dir, name :: rest =>
    if fs.find? dir ≠ some .directory then .error .notDirectory
    else if name = ['.'] then followUntilLink fs atLink dir rest
    else if name = ['.', '.'] then followUntilLink fs atLink dir.tail rest
    else if OsText.size name > fs.nameLimit then .error .nameTooLong
    else match fs.find? (name :: dir) with
      | none => .error .notFound
      | some (.link target) => atLink dir target rest
      | some _ => followUntilLink fs atLink (name :: dir) rest

/-- The location that names lead to from a directory, where at most the given number of links is followed. -/
def follow (fs : FileSystem) : Nat → Location → List OsText → Except OsError Location
  | 0 => followUntilLink fs fun _ _ _ => .error .tooManyLinks
  | links + 1 => followUntilLink fs fun dir target rest =>
    follow fs links (startOf dir target) (Path.steps target ++ rest)

/-- The location that a path met in the directory `dir` stands for. -/
def locate (fs : FileSystem) (dir : Location) (p : Path) : Except OsError Location :=
  if p = [] then .error .notFound
  else if OsText.size p ≥ maxPath then .error .nameTooLong
  else follow fs maxLinks (startOf dir p) (Path.steps p)

/-- The location and the entry that a path stands for. -/
def stat (fs : FileSystem) (p : Path) : Except OsError (Location × Entry) := do
  let loc ← fs.locate fs.workDir p
  match fs.find? loc with
  | some entry => .ok (loc, entry)
  | none => .error .notFound

def isDirectory (fs : FileSystem) (p : Path) : Bool :=
  match fs.stat p with
  | .ok (_, .directory) => true
  | _ => false

def isFile (fs : FileSystem) (p : Path) : Bool :=
  match fs.stat p with
  | .ok (_, .file _ _) => true
  | _ => false

def pathExists (fs : FileSystem) (p : Path) : Bool :=
  match fs.stat p with
  | .ok _ => true
  | .error _ => false

/-! ## Places -/

/-- The place that a path names. -/
inductive Slot where
  /-- The root directory. -/
  | root
  /-- A directory, by a final dot. -/
  | dot (loc : Location)
  /-- A directory, by two final dots. -/
  | dotDot (loc : Location)
  /-- A name in a directory; whether a slash stands behind it. -/
  | name (dir : Location) (name : OsText) (slash : Bool)
deriving DecidableEq, Repr

/-- The place that a path met in the directory `dir` names. -/
def slotIn (fs : FileSystem) (dir : Location) (p : Path) : Except OsError Slot :=
  if p = [] then .error .notFound
  else if OsText.size p ≥ maxPath then .error .nameTooLong
  else match (Path.segments p).getLast? with
    | none => .ok .root
    | some last => do
      let parent ← follow fs maxLinks (startOf dir p) (Path.segments p).dropLast
      if fs.find? parent ≠ some .directory then .error .notDirectory
      else if last = ['.'] then .ok (.dot parent)
      else if last = ['.', '.'] then .ok (.dotDot parent.tail)
      else if OsText.size last > fs.nameLimit then .error .nameTooLong
      else .ok (.name parent last (Path.endsWithSlash p))

def slot (fs : FileSystem) (p : Path) : Except OsError Slot := fs.slotIn fs.workDir p

/-- The location and the entry that a path names, a final link not followed. -/
def lstat (fs : FileSystem) (p : Path) : Except OsError (Location × Entry) := do
  match ← fs.slot p with
  | .name dir name false =>
    match fs.find? (name :: dir) with
    | some entry => .ok (name :: dir, entry)
    | none => .error .notFound
  | _ => fs.stat p

end ThriftModules.FileSystem
