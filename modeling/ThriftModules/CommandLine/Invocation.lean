import ThriftModules.CommandLine.Arguments
import ThriftModules.Run.Executable

/-!
# The program as a whole

* `Report` : the exit code, the message for standard error, and the file system that is left;
* `invoke` : a command line carried out.
-/

namespace ThriftModules.CommandLine

set_option autoImplicit false

structure Report where
  code : Nat
  /-- What is told if nothing was run, or the run failed. -/
  message : Option Text
  files : FileSystem
deriving DecidableEq, Repr

def reportOf {α : Type} (outcome : Except Run.RunError α × Run.Journal) : Report :=
  match outcome.1 with
  | .ok _ => ⟨0, none, outcome.2.files⟩
  | .error e => ⟨1, some e.message, outcome.2.files⟩

/-- A command line carried out, where `environment` is the compiler that the environment names. A refused command line
leaves the file system as it is. The path `scratch` must be free. -/
def invoke (programs : Run.Programs) (environment : Option Text) (args : List Text) (scratch : Path) (fs : FileSystem) :
    Report :=
  match parse environment args with
  | .error refusal => ⟨refusal.exitCode, some refusal.message, fs⟩
  | .ok a => reportOf (Run.runFrom (Run.generate a.settings (Run.executable programs a.thrift) scratch) fs)

end ThriftModules.CommandLine
