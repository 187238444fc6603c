import ThriftModules.Module.Script
import ThriftModules.Module.Declarations
import ThriftModules.Output.Tree
import ThriftModules.Run.Compiler

/-!
# A run: every source compiled and its modules composed

* `Settings` : what a run is asked for;
* `RunError` : why a run failed, with its message;
* `Journal` : the file system of a run, the requests that it has made and the warnings that it has given;
* `processSource` : one source, from its text to its two modules;
* `generate` : the whole run, from an empty output tree to the merged module.
-/

namespace ThriftModules.Run

set_option autoImplicit false

open Idl (Source Symbols SearchPath SourceError readSource resolveIncludes)
open Output (OutputError Tree listFiles readFiles removeFiles writeAtomically)
open ThriftModules.Module (Context Missing composeScript composeDeclarations)
open FileSystem (DiskM inspect)

/-! ## Settings and results -/

structure Settings where
  /-- What the import path of every module starts with. -/
  project : Text
  input : Path
  output : Path
  /-- Whether the script modules are joined into one. -/
  merge : Bool
  /-- Generator options for the server's classes. -/
  javaOptions : OsText
  /-- Generator options for the script and its declarations. -/
  scriptOptions : OsText
deriving DecidableEq, Repr

structure Summary where
  /-- The namespaces of the modules, in order. -/
  modules : List Namespace
  merged : Option Path
  /-- The number of names that the modules lack the code of. -/
  missing : Nat
deriving DecidableEq, Repr

inductive RunError where
  | source (cause : SourceError)
  | output (cause : OutputError)
  | scratch (cause : OsError)
  | workDir (dir : Path) (cause : OsError)
  | repeated (ns : Namespace) (file : Path)
  | notRun (message : Text)
  | compile (source : Path) (target : Target) (outcome : Outcome)
deriving DecidableEq, Repr

def RunError.message : RunError → Text
  | .source e => e.message
  | .output e => e.message
  | .scratch e => "Failed to create scratch directory: ".toList ++ e.message
  | .workDir dir e => ["can't create working directory ".toList, dir.display, ": ".toList, e.message].flatten
  | .repeated ns file =>
    ["namespace ".toList, ns, " of ".toList, file.display,
      " was already generated by another Thrift file".toList].flatten
  | .notRun message => message
  | .compile file target o =>
    ["can't compile Thrift file ".toList, file.display, " for ".toList, target.label, " (".toList, o.ending,
      "): ".toList, Text.trim o.stderr].flatten

/-! ## The journal -/

inductive ModuleKind where
  | script
  | declarations
deriving DecidableEq, Repr

/-- The notice that a module of a source lacks the code of a name. -/
structure Warning where
  source : Path
  kind : ModuleKind
  missing : Missing
deriving DecidableEq, Repr

structure Journal where
  files : FileSystem
  /-- The requests made so far, in order. -/
  requests : List Request
  /-- The warnings given so far, in order. -/
  warnings : List Warning
deriving DecidableEq, Repr

/-- A step of a run; what was done before a failure stays done. -/
abbrev RunM (α : Type) := EStateM RunError Journal α

def onDisk {ε α : Type} (rename : ε → RunError) (x : DiskM ε α) : RunM α := fun j =>
  match x j.files with
  | .ok a fs => .ok a { j with files := fs }
  | .error e fs => .error (rename e) { j with files := fs }

def look {ε α : Type} (rename : ε → RunError) (f : FileSystem → Except ε α) : RunM α := onDisk rename (inspect f)

def orStop {ε α : Type} (rename : ε → RunError) : Except ε α → RunM α
  | .ok a => pure a
  | .error e => throw (rename e)

def warnMissing (source : Path) (kind : ModuleKind) (missing : List Missing) : RunM Unit :=
  modify fun j => { j with warnings := j.warnings ++ missing.map (⟨source, kind, ·⟩) }

/-! ## One source -/

structure Setup where
  settings : Settings
  compiler : Compiler
  tree : Tree
  /-- A directory of the run's own, for what the compiler generates. -/
  scratch : Path
  search : SearchPath

def compile (setup : Setup) (source outputDir : Path) (target : Target) (options : OsText) : RunM Unit := do
  let request : Request := ⟨source, setup.search, outputDir, target, options⟩
  modify fun j => { j with requests := j.requests ++ [request] }
  let outcome ← onDisk .notRun (setup.compiler request)
  if !outcome.success then throw (.compile source target outcome)

/-- The generated files below a directory and their texts. -/
def collect (dir : Path) (suffix : Text) : RunM (List Path × List Text) := do
  let files ← look .output (listFiles · dir suffix)
  let texts ← look .output (readFiles · files)
  return (files, texts)

/-- One source compiled and its modules written; its namespace, and the number of names that the modules lack the code
of. The namespaces in `written` are taken. -/
def processSource (setup : Setup) (written : List Namespace) (file : Path) : RunM (Namespace × Nat) := do
  let source ← look .source (readSource · file)
  let ns ← orStop .source (source.ownNamespace source.identifier)
  if written.contains ns then throw (.repeated ns file)
  let includes ← look .source (resolveIncludes setup.search · source)
  let workDir := Path.join setup.scratch ns
  onDisk (.workDir workDir) (FileSystem.makeDirs workDir)
  compile setup file setup.tree.javaDir .java setup.settings.javaOptions
  compile setup file workDir .javaScript setup.settings.scriptOptions
  let ctx : Context := ⟨setup.settings.project, source, ns, .ofSource source, includes⟩
  let (declarationFiles, declarationTexts) ← collect workDir Output.declarationSuffix
  let declarations := composeDeclarations ctx declarationTexts
  let (scriptFiles, scriptTexts) ← collect workDir Output.scriptSuffix
  let script := composeScript ctx (Text.join ['\n'] scriptTexts)
  warnMissing file .script script.missing
  warnMissing file .declarations declarations.missing
  onDisk .output (writeAtomically (setup.tree.scriptModule ns) script.text)
  onDisk .output (writeAtomically (setup.tree.declarationModule ns) declarations.text)
  onDisk .output (removeFiles declarationFiles)
  onDisk .output (removeFiles scriptFiles)
  return (ns, script.missing.length + declarations.missing.length)

/-! ## The run -/

/-- The sources of a run one after the other, up to the first failure. -/
def processAll (setup : Setup) (done : Summary) : List Path → RunM Summary
  | [] => pure done
  | file :: rest => do
    let (ns, missing) ← processSource setup done.modules file
    processAll setup { done with modules := done.modules ++ [ns], missing := done.missing + missing } rest

def generateIn (settings : Settings) (compiler : Compiler) (tree : Tree) (scratch : Path) : RunM Summary := do
  let search ← look .source (SearchPath.discover · settings.input)
  let files ← look .output (listFiles · settings.input [])
  let summary ← processAll ⟨settings, compiler, tree, scratch, search⟩ ⟨[], none, 0⟩ files
  if settings.merge then
    let merged ← onDisk .output tree.mergeScripts
    return { summary with merged := some merged }
  else return summary

/-- The file system without a directory that was there for a run only. -/
def discard (scratch : Path) (fs : FileSystem) : FileSystem := (FileSystem.runOn fs (FileSystem.removeTree scratch)).2

/-- A run that leaves no scratch directory, whether it succeeds or fails. -/
def inScratch {α : Type} (scratch : Path) (x : RunM α) : RunM α := fun j =>
  match x j with
  | .ok a j' => .ok a { j' with files := discard scratch j'.files }
  | .error e j' => .error e { j' with files := discard scratch j'.files }

/-- The whole run: an empty output tree, then every source below the input directory compiled and composed. The path
`scratch` must be free; the run keeps generated scripts there while it needs them. -/
def generate (settings : Settings) (compiler : Compiler) (scratch : Path) : RunM Summary := do
  let tree ← onDisk .output (Tree.initialise settings.output)
  onDisk .scratch (FileSystem.makeDir scratch)
  inScratch scratch (generateIn settings compiler tree scratch)

def runFrom {α : Type} (x : RunM α) (files : FileSystem) : Except RunError α × Journal :=
  match x ⟨files, [], []⟩ with
  | .ok a j => (.ok a, j)
  | .error e j => (.error e, j)

end ThriftModules.Run
