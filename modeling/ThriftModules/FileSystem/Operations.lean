import ThriftModules.FileSystem.Lookup

/-!
# File operations

* `Disk` : a computation on a file system that may fail; what was done before a failure stays done;
* `readFile`, `readText` : the content of a file;
* `makeDir`, `makeDirs` : a new directory, without and with the missing ones above it;
* `writeFile` : a file written through links;
* `removeFile`, `removeTree` : an entry that is no directory removed, and a directory with all below it;
* `makeTemp`, `renameFile` : a fresh file in a directory, of a name that is free, and a file moved onto a path.

What an operation comes to depends on the entries alone: it does not fail for want of a permission or of space.
-/

namespace ThriftModules.FileSystem

set_option autoImplicit false

/-- A computation on a file system that may fail with `ε`; what was done before a failure stays done. -/
abbrev DiskM (ε α : Type) := EStateM ε FileSystem α

/-- A computation on a file system that may fail as the operating system does. -/
abbrev Disk (α : Type) := DiskM OsError α

/-- The answer of a look at the file system. -/
def inspect {ε α : Type} (look : FileSystem → Except ε α) : DiskM ε α := fun fs =>
  match look fs with
  | .ok a => .ok a fs
  | .error e => .error e fs

/-- A computation with its failures renamed. -/
def orFail {ε ε' α : Type} (rename : ε → ε') (x : DiskM ε α) : DiskM ε' α := fun fs =>
  match x fs with
  | .ok a fs' => .ok a fs'
  | .error e fs' => .error (rename e) fs'

def runOn {ε α : Type} (fs : FileSystem) (x : DiskM ε α) : Except ε α × FileSystem :=
  match x fs with
  | .ok a fs' => (.ok a, fs')
  | .error e fs' => (.error e, fs')

/-! ## Reading -/

def readFile (fs : FileSystem) (p : Path) : Except OsError Content := do
  match ← fs.stat p with
  | (_, .file content _) => .ok content
  | _ => .error .isDirectory

def readText (fs : FileSystem) (p : Path) : Except ReadError Text :=
  match fs.readFile p with
  | .error e => .error (.os e)
  | .ok (.binary _) => .error .notUtf8
  | .ok (.text t) => .ok t

/-! ## Making entries -/

/-- A new entry at the place that a path names, which must be free. A slash at the end asks for a directory. -/
def makeEntry (p : Path) (entry : Entry) : Disk Unit := do
  match ← inspect (slot · p) with
  | .name dir name slash =>
    if ((← get).find? (name :: dir)).isSome then throw .exists
    else if slash ∧ entry ≠ .directory then throw .notFound
    else modify (·.put (name :: dir) entry)
  | _ => throw .exists

def makeDir (p : Path) : Disk Unit := makeEntry p .directory

/-- The first path made a directory, where each is the parent of the one before it. -/
def makeDirsUp : List Path → Disk Unit
  | [] => pure ()
  | p :: above => do
    if p = [] then return ()
    match runOn (← get) (makeDir p) with
    | (.ok (), fs) => set fs
    | (.error .notFound, _) => do
      makeDirsUp above
      if !isDirectory (← get) p then makeDir p
    | (.error e, _) => if !isDirectory (← get) p then throw e

/-- A directory with all missing directories above it; one that is there already is left as it is. -/
def makeDirs (p : Path) : Disk Unit := makeDirsUp (Path.ancestors p)

/-! ## Changing files -/

/-- The location of the file to write at `p`, met in the directory `dir`, where `links` more links are followed. -/
def writeTarget (fs : FileSystem) : Nat → Location → Path → Except OsError Location
  | links, dir, p => do
    match ← fs.slotIn dir p with
    | .name _ _ true => .error .isDirectory
    | .name parent name false =>
      match fs.find? (name :: parent) with
      | some .directory => .error .isDirectory
      | some (.link target) =>
        match links with
        | 0 => .error .tooManyLinks
        | links + 1 => writeTarget fs links parent target
      | _ => .ok (name :: parent)
    | _ => .error .isDirectory

/-- The file at a place when it was written to, from what stood there; one that was executable stays so. -/
def fileAfter (content : Content) : Option Entry → Entry
  | some (.file _ executable) => .file content executable
  | _ => .file content false

/-- The file that `p` stands for, made if it is missing, with a new content. -/
def writeFile (p : Path) (content : Content) : Disk Unit := do
  let loc ← inspect fun fs => fs.writeTarget maxLinks fs.workDir p
  modify fun fs => fs.put loc (fileAfter content (fs.find? loc))

/-! ## Removing entries -/

/-- An entry that is no directory removed; a link is removed itself. -/
def removeFile (p : Path) : Disk Unit := do
  match ← inspect (slot · p) with
  | .name dir name slash =>
    match (← get).find? (name :: dir) with
    | none => throw .notFound
    | some .directory => throw .isDirectory
    | some _ => if slash then throw .notDirectory else modify (·.erase (name :: dir))
  | _ => throw .isDirectory

def removeDir (p : Path) : Disk Unit := do
  match ← inspect (slot · p) with
  | .root => throw .busy
  | .dot _ => throw .invalid
  | .dotDot _ => throw .notEmpty
  | .name dir name _ =>
    let fs ← get
    match fs.find? (name :: dir) with
    | none => throw .notFound
    | some .directory =>
      if (fs.children (name :: dir)).isEmpty then modify (·.erase (name :: dir)) else throw .notEmpty
    | some _ => throw .notDirectory

/-- A directory removed with all below it; a link is removed itself. A path that leads through what was below the
directory leads nowhere in the end, and the emptied directory stays. -/
def removeTree (p : Path) : Disk Unit := do
  match ← inspect (lstat · p) with
  | (_, .link _) => removeFile p
  | (loc, .directory) => do
    modify (·.eraseBelow loc)
    match runOn (← get) (removeDir p) with
    | (.ok (), fs) => set fs
    | (.error .notFound, _) => pure ()
    | (.error e, _) => throw e
  | (_, .file _ _) => throw .notDirectory

/-! ## Temporary files -/

/-- The letters and digits of ASCII, which fresh names are made of. -/
def freshChars : List Char := "ABCDEFGHIJKLMNOPQRSTUVWXYZabcdefghijklmnopqrstuvwxyz0123456789".toList

/-- The last `k` digits of `n`, the least first, where the letters and digits are the digits. -/
def freshDigits : Nat → Nat → OsText
  | 0, _ => []
  | k + 1, n => freshChars.getD (n % 62) '0' :: freshDigits k (n / 62)

/-- The `n`th name that is tried for a fresh file: a mark and six letters or digits. -/
def candidate (n : Nat) : OsText := ".tmp".toList ++ freshDigits 6 n

def candidateCount : Nat := Nat.pow 62 6

/-- A candidate that the directory does not hold, if there is one. -/
def freshName? (fs : FileSystem) (dir : Location) : Option OsText :=
  -- one of more candidates than there are entries is free
  ((List.range (min (fs.entries.length + 1) candidateCount)).map candidate).find? fun name =>
    (fs.find? (name :: dir)).isNone

/-- The directory for a fresh file, where the empty path stands for the working directory. -/
def tempDirectory (fs : FileSystem) (dir : Path) : Except OsError Location :=
  if dir = [] then .ok fs.workDir else fs.locate fs.workDir dir

def absolute (fs : FileSystem) (p : Path) : Path :=
  Path.join (fs.workDir.foldr (fun name above => Path.join above name) ['/']) p

/-- The place for a fresh file in the directory at `dir`. The file is made at its path from the root. -/
def tempPlace (fs : FileSystem) (dir : Path) : Except OsError Location := do
  let loc ← fs.tempDirectory dir
  if fs.find? loc ≠ some .directory then .error .notDirectory
  else match fs.freshName? loc with
    | none => .error .exists
    | some name =>
      if OsText.size name ≤ fs.nameLimit ∧ OsText.size (fs.absolute (Path.join dir name)) < maxPath then
        .ok (name :: loc)
      else .error .nameTooLong

def makeTemp (dir : Path) (content : Content) : Disk Location := do
  let temp ← inspect (tempPlace · dir)
  modify (·.put temp (.file content false))
  return temp

/-- The file at a location moved onto the place that a path names, over what stands there unless it is a directory. -/
def renameFile (source : Location) (p : Path) : Disk Unit := do
  match ← inspect (slot · p) with
  | .name dir name slash =>
    let fs ← get
    if slash then throw .notDirectory
    if fs.find? (name :: dir) = some .directory then throw .isDirectory
    match fs.find? source with
    | some entry => set ((fs.erase source).put (name :: dir) entry)
    | none => throw .notFound
  | _ => throw .busy

end ThriftModules.FileSystem
