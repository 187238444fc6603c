import ThriftModules.Idl.SearchPath

/-!
# The Thrift compiler

* `Target`, `Request` : what one run of the compiler is asked for;
* `Outcome` : how a run of the compiler ended;
* `Compiler` : a compiler, as what it does to the file system on a request;
* `Command`, `commandOf` : the command line of a request.
-/

namespace ThriftModules.Run

set_option autoImplicit false

open Idl (SearchPath)
open FileSystem (DiskM)

inductive Target where
  | java
  | javaScript
deriving DecidableEq, Repr

def Target.label : Target → Text
  | .java => "Java".toList
  | .javaScript => "JavaScript".toList

/-- One run of the compiler on one source. -/
structure Request where
  source : Path
  includeDirs : SearchPath
  outputDir : Path
  target : Target
  options : OsText
deriving DecidableEq, Repr

/-- How a run of the compiler ended. -/
structure Outcome where
  /-- The exit code; none if a signal ended it. -/
  code : Option Int
  /-- What it wrote to standard error. -/
  stderr : Text
deriving DecidableEq, Repr

namespace Outcome

def success (o : Outcome) : Bool := o.code == some 0

def ending (o : Outcome) : Text :=
  match o.code with
  | some code => "exit code ".toList ++ Text.ofInt code
  | none => "terminated by signal".toList

end Outcome

/-- A compiler, as what it does to the file system on a request. It fails with a message if it cannot be run. -/
abbrev Compiler := Request → DiskM Text Outcome

structure Command where
  program : Path
  args : List OsText
deriving DecidableEq, Repr

/-- The command line of a request: the include directories, the output directory, the options and the source. -/
def commandOf (binary : Path) (r : Request) : Command :=
  ⟨binary, r.includeDirs.dirs.flatMap (fun dir => ["-I".toList, dir]) ++
    ["-out".toList, r.outputDir, "--gen".toList, r.options, r.source]⟩

end ThriftModules.Run
