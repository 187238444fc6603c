import ThriftModules.FileSystem.OsText

/-!
# Paths as text

* `Path.join` : a path below another one; an absolute path stands for itself;
* `Path.segments` : the names between the slashes;
* `Path.parent?` : the path without its last name, as it is written;
* `Path.ancestors` : a path, its parent, the parent of that, and so on;
* `Path.fileName` : what stands behind the last slash.
-/

namespace ThriftModules

set_option autoImplicit false

/-- A path as it is written. -/
abbrev Path := OsText

namespace Path

def isAbsolute (p : Path) : Bool := p.head? == some '/'

def endsWithSlash (p : Path) : Bool := p.getLast? == some '/'

def join (base p : Path) : Path :=
  if isAbsolute p then p
  else if base.isEmpty || endsWithSlash base then base ++ p
  else base ++ '/' :: p

/-! ## Segments -/

/-- The pieces between the slashes, empty ones included. -/
def pieces : OsText → List OsText
  | [] => [[]]
  | c :: r =>
    if c = '/' then [] :: pieces r
    else match pieces r with
      | [] => [[c]]
      | p :: ps => (c :: p) :: ps

/-- The names that a path goes through, from the left. -/
def segments (p : Path) : List OsText := (pieces p).filter (· ≠ [])

/-- The names that a path goes through, where a slash at its end asks for a directory. -/
def steps (p : Path) : List OsText := segments p ++ if endsWithSlash p then [['.']] else []

/-! ## Parents -/

/-- A path read from its end, without the empty names and the dots that it ends with. -/
def dropIdleEnd : OsText → OsText
  | '/' :: r => dropIdleEnd r
  | '.' :: '/' :: r => dropIdleEnd r
  | ['.'] => []
  | r => r

/-- The path without its last name. `lead` is a root slash or a leading dot, `body` what follows it, from the end. -/
def parentFrom (lead : Path) (reversedBody : OsText) : Path :=
  lead ++ (dropIdleEnd ((dropIdleEnd reversedBody).dropWhile (· ≠ '/'))).reverse

/-- The path without its last name; the root and the empty path have none. -/
def parent? : Path → Option Path
  | '/' :: body => if dropIdleEnd body.reverse = [] then none else some (parentFrom ['/'] body.reverse)
  | ['.'] => some []
  | '.' :: '/' :: body =>
    if dropIdleEnd body.reverse = [] then some [] else some (parentFrom ['.'] (body.reverse ++ ['/']))
  | [] => none
  | body => some (parentFrom [] body.reverse)

def ancestorsUpTo : Nat → Path → List Path
  | 0, _ => []
  | n + 1, p => p :: ((parent? p).map (ancestorsUpTo n)).getD []

def ancestors (p : Path) : List Path := ancestorsUpTo (p.length + 2) p

def fileName (p : Path) : OsText := (p.reverse.takeWhile (· ≠ '/')).reverse

end Path
end ThriftModules
