import ThriftModules.Run.Generate

/-!
# The arguments of a run

* `ValueOption`, `Switch` : what the command line accepts, with the short and long names;
* `Refusal` : why a command line is refused, or stops for help or the version;
* `Reading` : what has been read of a command line, with the option that waits for its value;
* `Reading.readAll` : the arguments read from left to right, up to the first refusal;
* `Arguments`, `parse` : the settings of a run and the compiler to use.

A value is stored, and checked, when the next option is met or the arguments end. No value starts with a dash, so no
value can be taken for an option of the compiler. Arguments are texts: all values are read as texts, so that a command
line with bytes that encode none is refused before any of this.
-/

namespace ThriftModules.CommandLine

set_option autoImplicit false

open Run (Settings)

/-! ## Options -/

inductive ValueOption where
  | project
  | input
  | output
  | thrift
  | javaGen
  | scriptGen
deriving DecidableEq, Repr

inductive Switch where
  | merge
  | help
  | version
deriving DecidableEq, Repr

inductive Known where
  | value (option : ValueOption)
  | switch (switch : Switch)
deriving DecidableEq, Repr

def short? (c : Char) : Option Known :=
  if c = 'p' then some (.value .project)
  else if c = 'i' then some (.value .input)
  else if c = 's' then some (.value .output)
  else if c = 'm' then some (.switch .merge)
  else if c = 'h' then some (.switch .help)
  else if c = 'V' then some (.switch .version)
  else none

def longNames : List (Text × Known) :=
  [("project".toList, .value .project), ("input".toList, .value .input), ("output".toList, .value .output),
    ("merge".toList, .switch .merge), ("thrift".toList, .value .thrift), ("java-gen".toList, .value .javaGen),
    ("js-gen".toList, .value .scriptGen), ("help".toList, .switch .help), ("version".toList, .switch .version)]

def long? (name : Text) : Option Known := longNames.lookup name

/-! ## Refusals -/

inductive Refusal where
  | help
  | version
  /-- An argument is no option and no value of one. -/
  | unknownArgument
  | noValue
  /-- A value starts with a dash. -/
  | dashedValue
  | repeated
  /-- An option without a value is given one. -/
  | unwantedValue
  /-- An option that is required is missing. -/
  | missingOption
deriving DecidableEq, Repr

def Refusal.message : Refusal → Text
  | .help =>
    ("Turn Thrift JavaScript output into CommonJS and TypeScript modules\n\n" ++
      "Options: -p PROJECT -i INPUT -s OUTPUT [-m] [--thrift THRIFT] [--java-gen OPTIONS] [--js-gen OPTIONS]").toList
  | .version => "t2ng".toList
  | .unknownArgument => "error: unexpected argument".toList
  | .noValue => "error: a value is required".toList
  | .dashedValue => "error: missed value for parameter".toList
  | .repeated => "error: an option cannot be used multiple times".toList
  | .unwantedValue => "error: unexpected value for a flag".toList
  | .missingOption => "error: -p, -i and -s are required".toList

def Refusal.exitCode : Refusal → Nat
  | .help => 0
  | .version => 0
  | _ => 2

/-! ## Reading -/

structure Reading where
  values : List (ValueOption × Text)
  /-- Whether merging has been asked for. -/
  merge : Bool
  /-- The option that is not stored yet, and its value if it has been met. -/
  pending : Option (ValueOption × Option Text)
deriving DecidableEq, Repr

namespace Reading

def start : Reading := ⟨[], false, none⟩

def value? (r : Reading) (option : ValueOption) : Option Text := r.values.lookup option

/-- Whether a value may be stored: it does not start with a dash. -/
def acceptable (value : Text) : Bool := value.head? != some '-'

/-- A value stored for an option. -/
def store (r : Reading) (option : ValueOption) (value : Text) : Except Refusal Reading :=
  if (r.value? option).isSome then .error .repeated
  else if acceptable value then .ok { r with values := r.values ++ [(option, value)] }
  else .error .dashedValue

def settle (r : Reading) : Except Refusal Reading :=
  match r.pending with
  | none => .ok r
  | some (_, none) => .error .noValue
  | some (option, some value) => store { r with pending := none } option value

def attach (r : Reading) (option : ValueOption) (value : Text) : Except Refusal Reading := do
  (← r.settle).store option value

def await (r : Reading) (option : ValueOption) : Except Refusal Reading := do
  return { ← r.settle with pending := some (option, none) }

def raise (r : Reading) (switch : Switch) : Except Refusal Reading := do
  let r ← r.settle
  match switch with
  | .merge => if r.merge then .error .repeated else return { r with merge := true }
  | .help => .error .help
  | .version => .error .version

def dropEquals : Text → Text
  | '=' :: rest => rest
  | t => t

/-- The short options of one argument; the first that takes a value takes the rest of the argument, if there is any. -/
def readShort (r : Reading) : Text → Except Refusal Reading
  | [] => .ok r
  | c :: rest =>
    match short? c with
    | none => .error .unknownArgument
    | some (.switch switch) => do readShort (← r.raise switch) rest
    | some (.value option) => if rest = [] then r.await option else r.attach option (dropEquals rest)

/-- A long option, with what follows the first equals sign as its value. -/
def readLong (r : Reading) (argument : Text) : Except Refusal Reading :=
  let name := argument.takeWhile (· ≠ '=')
  match long? name, argument.drop name.length with
  | none, _ => .error .unknownArgument
  | some (.value option), [] => r.await option
  | some (.value option), _ :: value => r.attach option value
  | some (.switch switch), [] => r.raise switch
  | some (.switch _), _ :: _ => .error .unwantedValue

def readAll (r : Reading) : List Text → Except Refusal Reading
  | [] => r.settle
  | ['-', '-'] :: rest => if rest = [] then r.settle else .error .unknownArgument
  | ('-' :: '-' :: name) :: rest => do readAll (← r.readLong name) rest
  | ('-' :: c :: cs) :: rest => do readAll (← r.readShort (c :: cs)) rest
  | argument :: rest =>
    match r.pending with
    | some (option, none) => readAll { r with pending := some (option, some argument) } rest
    | _ => .error .unknownArgument

end Reading

/-! ## Arguments -/

def defaultThrift : Path := "thrift".toList

def defaultJavaGen : Text := "java:generated_annotations=undated,beans,hashcode".toList

def defaultScriptGen : Text := "js:ts".toList

/-- What a command line asks for. -/
structure Arguments where
  settings : Settings
  thrift : Path
deriving DecidableEq, Repr

def thriftOf (r : Reading) (environment : Option Text) : Except Refusal Path :=
  match r.value? .thrift, environment with
  | some value, _ => .ok (.ofText value)
  | none, some value => if Reading.acceptable value then .ok (.ofText value) else .error .dashedValue
  | none, none => .ok defaultThrift

/-- The arguments of a run, where `environment` is the compiler that the environment names. -/
def parse (environment : Option Text) (args : List Text) : Except Refusal Arguments := do
  let r ← Reading.start.readAll args
  let thrift ← thriftOf r environment
  match r.value? .project, r.value? .input, r.value? .output with
  | some project, some input, some output =>
    let javaOptions := (r.value? .javaGen).getD defaultJavaGen
    let scriptOptions := (r.value? .scriptGen).getD defaultScriptGen
    return ⟨⟨project, .ofText input, .ofText output, r.merge, .ofText javaOptions, .ofText scriptOptions⟩, thrift⟩
  | _, _, _ => .error .missingOption

end ThriftModules.CommandLine
