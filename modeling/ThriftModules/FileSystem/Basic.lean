import ThriftModules.FileSystem.Path
import ThriftModules.Text.NameSet

/-!
# File systems

* `Content` : the content of a file, a text or bytes that encode none;
* `Location` : the names that lead from the root to an entry, the innermost first;
* `Entry` : a directory, a file, or a symbolic link;
* `FileSystem` : the entries by location, with the working directory and the limit on names;
* `find?`, `put`, `erase`, `eraseBelow` : lookup and change (`find?_put`, `find?_erase`, `find?_eraseBelow`);
* `children` : the names in a directory, in increasing order.
-/

namespace ThriftModules

set_option autoImplicit false

/-! ## Contents -/

/-- The content of a file, a text or bytes that encode none. -/
inductive Content where
  | text (t : Text)
  | binary (bytes : List UInt8)
deriving DecidableEq, Repr

/-! ## Entries -/

/-- The names that lead from the root to an entry, the innermost first. -/
abbrev Location := List OsText

/-- What a directory holds under a name. -/
inductive Entry where
  | directory
  | file (content : Content) (executable : Bool)
  | link (target : Path)
deriving DecidableEq, Repr

/-- Entries by location. The root directory is always there. -/
structure FileSystem where
  entries : List (Location × Entry)
  /-- The directory that relative paths start from. -/
  workDir : Location
  /-- The greatest length of a name in bytes. -/
  nameLimit : Nat
deriving DecidableEq, Repr

namespace FileSystem

def usualNameLimit : Nat := 255

def bare (workDir : Location) : FileSystem := ⟨[], workDir, usualNameLimit⟩

def find? (fs : FileSystem) : Location → Option Entry
  | [] => some .directory
  | loc => fs.entries.lookup loc

def erase (fs : FileSystem) (loc : Location) : FileSystem :=
  { fs with entries := fs.entries.filter (·.1 ≠ loc) }

def put (fs : FileSystem) (loc : Location) (entry : Entry) : FileSystem :=
  { fs with entries := (loc, entry) :: (fs.erase loc).entries }

/-- Whether `loc` lies inside the directory `dir`, at any depth. -/
def isBelow (dir loc : Location) : Bool := dir.isSuffixOf loc && dir ≠ loc

/-- The file system without the entries inside a directory. -/
def eraseBelow (fs : FileSystem) (dir : Location) : FileSystem :=
  { fs with entries := fs.entries.filter (! isBelow dir ·.1) }

def nameIn? (dir : Location) : Location → Option OsText
  | [] => none
  | name :: parent => if parent = dir then some name else none

def children (fs : FileSystem) (dir : Location) : List OsText :=
  (NameSet.ofList (fs.entries.filterMap (nameIn? dir ·.1))).toList

/-! ## Lookup after a change -/

theorem lookup_filter (p : Location → Bool) (x : Location) (entries : List (Location × Entry)) :
    (entries.filter (p ·.1)).lookup x = if p x then entries.lookup x else none := by
  induction entries with
  | nil => simp
  | cons e rest ih =>
    obtain ⟨l, v⟩ := e
    rw [List.filter_cons]
    by_cases hx : x = l
    · subst hx
      cases hp : p x
      · rw [hp] at ih
        simpa using ih
      · simp
    · have hb : (x == l) = false := beq_eq_false_iff_ne.2 hx
      cases hp : p l <;> simp only [List.lookup_cons, hb, ih, if_true, if_false, Bool.false_eq_true]

theorem find?_erase {fs : FileSystem} {loc : Location} (h : loc ≠ []) (x : Location) :
    (fs.erase loc).find? x = if x = loc then none else fs.find? x := by
  cases x with
  | nil => simp [find?, Ne.symm h]
  | cons n p =>
    refine (lookup_filter (· ≠ loc) (n :: p) fs.entries).trans ?_
    by_cases hx : n :: p = loc <;> simp [find?, hx]

theorem find?_put {fs : FileSystem} {loc : Location} {entry : Entry} (h : loc ≠ []) (x : Location) :
    (fs.put loc entry).find? x = if x = loc then some entry else fs.find? x := by
  have he : (fs.erase loc).find? x = _ := find?_erase h x
  cases x with
  | nil => simp [find?, Ne.symm h]
  | cons n p =>
    by_cases hx : n :: p = loc
    · simp [find?, put, hx]
    · simp only [find?, if_neg hx] at he
      simp only [find?, put, List.lookup_cons, beq_eq_false_iff_ne.2 hx, he, if_neg hx]

theorem find?_eraseBelow (fs : FileSystem) (dir x : Location) :
    (fs.eraseBelow dir).find? x = if isBelow dir x then none else fs.find? x := by
  cases x with
  | nil => cases dir <;> simp [find?, isBelow]
  | cons n p =>
    refine (lookup_filter (! isBelow dir ·) (n :: p) fs.entries).trans ?_
    cases hx : isBelow dir (n :: p) <;> simp [find?]

end FileSystem
end ThriftModules
