import ThriftModules.Run.Compiler

/-!
# The compiler as a program

* `Ending` : how a program ended;
* `Programs` : the programs that can be run, as what they do to the file system;
* `executable` : the compiler that is a program.
-/

namespace ThriftModules.Run

set_option autoImplicit false

open FileSystem (Disk orFail)

structure Ending where
  /-- The exit status; none if a signal ended it. -/
  status : Option Nat
  /-- What it wrote to standard error. -/
  complaints : List UInt8
deriving DecidableEq, Repr

/-- The programs that can be run, named by a path or found by a name. One that cannot be run changes nothing. -/
abbrev Programs := Command → Disk Ending

def Ending.outcome (ending : Ending) : Outcome :=
  ⟨ending.status.map Int.ofNat, Text.Utf8.decodeLossy ending.complaints⟩

def notRunMessage (binary : Path) (cause : OsError) : Text :=
  ["Failed to run ".toList, binary.display, ": ".toList, cause.message].flatten

/-- The compiler that is a program, run with the command line of each request. -/
def executable (programs : Programs) (binary : Path) : Compiler := fun request =>
  orFail (notRunMessage binary) (Ending.outcome <$> programs (commandOf binary request))

end ThriftModules.Run
