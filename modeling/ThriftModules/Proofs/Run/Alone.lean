import ThriftModules.Run.Generate
import ThriftModules.Proofs.FileSystem.Visited
import ThriftModules.Proofs.Output.Initialised

/-!
# One source on its own

* `Modules`, `compose` : the two modules of a source, made of what the compiler writes for that source alone;
* `Confined`, `Determined` : compilers that keep to their output directory, and that go by their request;
* `reserved`, `Apart` : what a run keeps for itself, and arguments whose sources are looked up elsewhere;
* `Passage` : the steps that a processed source goes through (`exists_passage`).
-/

namespace ThriftModules.Run

set_option autoImplicit false

open Idl (Source Includes SearchPath readSource resolveIncludes)
open Output (Tree listFiles readFiles removeFiles writeAtomically)
open ThriftModules.Module (Context Composed composeScript composeDeclarations)
open FileSystem (DiskM Frame Reaches Avoids inspect isBelow)

/-! ## Modules -/

/-- The two modules of a source, with the namespace that names them. -/
structure Modules where
  ns : Namespace
  script : Composed
  declarations : Composed

def Modules.missing (m : Modules) : Nat := m.script.missing.length + m.declarations.missing.length

def Modules.scriptFile (m : Modules) : OsText × Text := (m.ns ++ Output.scriptSuffix, m.script.text)

def Modules.declarationFile (m : Modules) : OsText × Text := (m.ns ++ Output.declarationSuffix, m.declarations.text)

/-- The modules of a source, composed of generated scripts and declarations. -/
def modulesOf (setup : Setup) (source : Source) (ns : Namespace) (includes : Includes)
    (scripts declarations : List Text) : Modules :=
  let ctx : Context := ⟨setup.settings.project, source, ns, .ofSource source, includes⟩
  ⟨ns, composeScript ctx (Text.join ['\n'] scripts), composeDeclarations ctx declarations⟩

/-- A source on its own: its script and its declarations compiled in a directory of their own, and its modules composed
of the files that are there. -/
def compose (setup : Setup) (file : Path) : RunM Modules := do
  let source ← look .source (readSource · file)
  let ns ← orStop .source (source.ownNamespace source.identifier)
  let includes ← look .source (resolveIncludes setup.search · source)
  let workDir := Path.join setup.scratch ns
  onDisk (.workDir workDir) (FileSystem.makeDirs workDir)
  compile setup file workDir .javaScript setup.settings.scriptOptions
  let (_, declarations) ← collect workDir Output.declarationSuffix
  let (_, scripts) ← collect workDir Output.scriptSuffix
  return modulesOf setup source ns includes scripts declarations

/-- In `fs`, with nothing else processed, the source in `file` comes to the modules `m`. -/
def Composes (setup : Setup) (fs : FileSystem) (file : Path) (m : Modules) : Prop :=
  (runFrom (compose setup file) fs).1 = .ok m

/-! ## Compilers -/

/-- No symbolic link lies below a location. -/
def HasNoLinks (fs : FileSystem) (loc : Location) : Prop :=
  ∀ x target, isBelow loc x = true → fs.find? x ≠ some (.link target)

theorem HasNoLinks.congr {fs fs' : FileSystem} {loc : Location} (h : HasNoLinks fs loc)
    (hf : ∀ x, isBelow loc x = true → fs'.find? x = fs.find? x) : HasNoLinks fs' loc := by
  intro x target hx
  rw [hf x hx]
  exact h x target hx

/-- A compiler that changes nothing but what lies below the output directory of its request, and that makes no links. -/
structure Confined (compiler : Compiler) : Prop where
  frame : ∀ {r : Request} {fs fs' : FileSystem} {loc : Location} {outcome : Outcome}, fs.WellFormed →
    fs.stat r.outputDir = .ok (loc, .directory) → HasNoLinks fs loc → compiler r fs = .ok outcome fs' →
      Frame fs fs' (isBelow loc · = true) ∧ fs'.WellFormed ∧ HasNoLinks fs' loc

/-- A compiler that ends in the same way and leaves the same files in an empty output directory, whatever lies in
`zone`. -/
structure Determined (compiler : Compiler) (zone : Location → Bool) : Prop where
  same : ∀ {r : Request} {fs fs' g : FileSystem} {loc : Location} {outcome : Outcome}, fs.WellFormed →
    fs'.WellFormed → Frame fs fs' (zone · = true) →
    fs.stat r.outputDir = .ok (loc, .directory) → fs'.stat r.outputDir = .ok (loc, .directory) →
    fs.children loc = [] → fs'.children loc = [] → compiler r fs = .ok outcome g →
      ∃ g', compiler r fs' = .ok outcome g' ∧ ∀ x, isBelow loc x = true → g'.find? x = g.find? x

/-! ## Places -/

def isInside (fs : FileSystem) (dir : Path) (x : Location) : Bool :=
  match fs.stat dir with
  | .ok (loc, .directory) => isBelow loc x
  | _ => false

/-- The locations that a run keeps for itself: the insides of its output tree and of its scratch directory. -/
def reserved (tree : Tree) (scratch : Path) (fs : FileSystem) (x : Location) : Bool :=
  (scratch :: tree.dirs).any (isInside fs · x)

/-- The scratch directory lies outside the output tree, and no lookup of a source or of a file that one may include
leads inside either of them. -/
structure Apart (settings : Settings) (tree : Tree) (scratch : Path) (fs : FileSystem) : Prop where
  outside : ∀ loc, fs.stat scratch = .ok (loc, .directory) → ∀ dir ∈ tree.dirs, isInside fs dir loc = false
  sources : ∀ files, listFiles fs settings.input [] = .ok files → ∀ file ∈ files,
    Avoids fs (reserved tree scratch fs · = true) file
  includes : ∀ search files, SearchPath.discover fs settings.input = .ok search →
    listFiles fs settings.input [] = .ok files → ∀ file ∈ files, ∀ source, readSource fs file = .ok source →
      ∀ name ∈ source.includes, ∀ dir ∈ search.dirs,
        Avoids fs (reserved tree scratch fs · = true) (Path.join dir (SearchPath.fileOf name))

/-! ## Steps of a run -/

section
variable {ε α : Type} {rename : ε → RunError} {j j' : Journal} {a : α}

theorem onDisk_eq_ok {x : DiskM ε α} :
    onDisk rename x j = .ok a j' ↔ ∃ fs, x j.files = .ok a fs ∧ j' = { j with files := fs } := by
  unfold onDisk
  cases x j.files with
  | ok b fs =>
    constructor
    · intro h
      cases h
      exact ⟨fs, rfl, rfl⟩
    · rintro ⟨fs', h, rfl⟩
      cases h
      rfl
  | error e fs =>
    constructor
    · intro h
      cases h
    · rintro ⟨fs', h, -⟩
      cases h

theorem look_eq_ok {f : FileSystem → Except ε α} : look rename f j = .ok a j' ↔ f j.files = .ok a ∧ j' = j := by
  unfold look
  rw [onDisk_eq_ok]
  constructor
  · rintro ⟨fs, h, rfl⟩
    obtain ⟨hf, rfl⟩ := FileSystem.inspect_eq_ok.1 h
    exact ⟨hf, rfl⟩
  · rintro ⟨h, rfl⟩
    exact ⟨j'.files, FileSystem.inspect_eq_ok.2 ⟨h, rfl⟩, rfl⟩

theorem orStop_eq_ok {x : Except ε α} : orStop rename x j = .ok a j' ↔ x = .ok a ∧ j' = j := by
  cases x with
  | ok b =>
    constructor
    · intro h
      cases h
      exact ⟨rfl, rfl⟩
    · rintro ⟨h, rfl⟩
      cases h
      rfl
  | error e =>
    constructor
    · intro h
      cases h
    · rintro ⟨h, -⟩
      cases h

end

section
variable {setup : Setup} {file : Path} {j j' : Journal}

def requestOf (setup : Setup) (source outputDir : Path) (target : Target) (options : Text) : Request :=
  ⟨source, setup.search, outputDir, target, options⟩

theorem compile_eq_ok {outputDir : Path} {target : Target} {options : Text} :
    compile setup file outputDir target options j = .ok () j' ↔
      ∃ outcome fs, setup.compiler (requestOf setup file outputDir target options) j.files = .ok outcome fs ∧
        outcome.success = true ∧
        j' = { j with files := fs, requests := j.requests ++ [requestOf setup file outputDir target options] } := by
  unfold compile
  constructor
  · intro h
    obtain ⟨u, j₁, h₁, hrest⟩ := Chain.run_bind_eq_ok.1 h
    cases h₁
    obtain ⟨outcome, j₂, h₂, hend⟩ := Chain.run_bind_eq_ok.1 hrest
    obtain ⟨fs, hc, rfl⟩ := onDisk_eq_ok.1 h₂
    cases hs : outcome.success with
    | false =>
      rw [hs] at hend
      cases hend
    | true =>
      rw [hs] at hend
      cases hend
      exact ⟨outcome, fs, hc, hs, rfl⟩
  · rintro ⟨outcome, fs, hc, hs, rfl⟩
    refine Chain.run_bind_eq_ok.2 ⟨(), _, rfl, Chain.run_bind_eq_ok.2 ⟨outcome, _, onDisk_eq_ok.2 ⟨fs, hc, rfl⟩, ?_⟩⟩
    rw [hs]
    rfl

theorem collect_eq_ok {dir : Path} {suffix : Text} {files : List Path} {texts : List Text} :
    collect dir suffix j = .ok (files, texts) j' ↔
      listFiles j.files dir suffix = .ok files ∧ readFiles j.files files = .ok texts ∧ j' = j := by
  unfold collect
  constructor
  · intro h
    obtain ⟨fs, j₁, h₁, hrest⟩ := Chain.run_bind_eq_ok.1 h
    obtain ⟨ts, j₂, h₂, hend⟩ := Chain.run_bind_eq_ok.1 hrest
    obtain ⟨hl, rfl⟩ := look_eq_ok.1 h₁
    obtain ⟨hr, rfl⟩ := look_eq_ok.1 h₂
    cases hend
    exact ⟨hl, hr, rfl⟩
  · rintro ⟨hl, hr, rfl⟩
    exact Chain.run_bind_eq_ok.2 ⟨files, j', look_eq_ok.2 ⟨hl, rfl⟩,
      Chain.run_bind_eq_ok.2 ⟨texts, j', look_eq_ok.2 ⟨hr, rfl⟩, rfl⟩⟩

/-- The steps that a processed source goes through. -/
structure Passage (setup : Setup) (written : List Namespace) (file : Path) (fs fs' : FileSystem) where
  source : Source
  ns : Namespace
  includes : Includes
  /-- With the work directory. -/
  made : FileSystem
  serverOutcome : Outcome
  /-- With the server's classes. -/
  served : FileSystem
  outcome : Outcome
  /-- With the generated scripts and declarations. -/
  compiled : FileSystem
  declarationFiles : List Path
  declarationTexts : List Text
  scriptFiles : List Path
  scriptTexts : List Text
  /-- With the script module. -/
  scripted : FileSystem
  /-- With both modules. -/
  declared : FileSystem
  /-- Without the generated declarations. -/
  cleared : FileSystem
  read : readSource fs file = .ok source
  named : source.ownNamespace source.identifier = .ok ns
  new : ns ∉ written
  resolved : resolveIncludes setup.search fs source = .ok includes
  workDir : FileSystem.makeDirs (Path.join setup.scratch ns) fs = .ok () made
  server : setup.compiler (requestOf setup file setup.tree.javaDir .java setup.settings.javaOptions) made =
    .ok serverOutcome served
  client : setup.compiler (requestOf setup file (Path.join setup.scratch ns) .javaScript
    setup.settings.scriptOptions) served = .ok outcome compiled
  success : outcome.success = true
  declarationsListed : listFiles compiled (Path.join setup.scratch ns) Output.declarationSuffix = .ok declarationFiles
  declarationsRead : readFiles compiled declarationFiles = .ok declarationTexts
  scriptsListed : listFiles compiled (Path.join setup.scratch ns) Output.scriptSuffix = .ok scriptFiles
  scriptsRead : readFiles compiled scriptFiles = .ok scriptTexts
  scriptWritten : writeAtomically (setup.tree.scriptModule ns)
    (modulesOf setup source ns includes scriptTexts declarationTexts).script.text compiled = .ok () scripted
  declarationWritten : writeAtomically (setup.tree.declarationModule ns)
    (modulesOf setup source ns includes scriptTexts declarationTexts).declarations.text scripted = .ok () declared
  declarationsRemoved : removeFiles declarationFiles declared = .ok () cleared
  scriptsRemoved : removeFiles scriptFiles cleared = .ok () fs'

def Passage.modules {written : List Namespace} {fs fs' : FileSystem} (p : Passage setup written file fs fs') :
    Modules :=
  modulesOf setup p.source p.ns p.includes p.scriptTexts p.declarationTexts

theorem exists_passage {written : List Namespace} {ns : Namespace} {missing : Nat}
    (h : processSource setup written file j = .ok (ns, missing) j') :
    ∃ p : Passage setup written file j.files j'.files, p.ns = ns ∧ p.modules.missing = missing := by
  unfold processSource at h
  obtain ⟨source, _, h₁, r₁⟩ := Chain.run_bind_eq_ok.1 h
  obtain ⟨hread, rfl⟩ := look_eq_ok.1 h₁
  obtain ⟨ns', _, h₂, r₂⟩ := Chain.run_bind_eq_ok.1 r₁
  obtain ⟨hnamed, rfl⟩ := orStop_eq_ok.1 h₂
  simp only at r₂
  cases hnew : written.contains ns' with
  | true =>
    rw [hnew] at r₂
    cases r₂
  | false =>
    rw [hnew, if_neg Bool.false_ne_true] at r₂
    obtain ⟨includes, _, h₃, r₃⟩ := Chain.run_bind_eq_ok.1 r₂
    obtain ⟨hresolved, rfl⟩ := look_eq_ok.1 h₃
    obtain ⟨_, _, h₄, r₄⟩ := Chain.run_bind_eq_ok.1 r₃
    obtain ⟨made, hmade, rfl⟩ := onDisk_eq_ok.1 h₄
    obtain ⟨_, _, h₅, r₅⟩ := Chain.run_bind_eq_ok.1 r₄
    obtain ⟨outcome, served, hserved, -, rfl⟩ := compile_eq_ok.1 h₅
    obtain ⟨_, _, h₆, r₆⟩ := Chain.run_bind_eq_ok.1 r₅
    obtain ⟨outcome', compiled, hcompiled, hs, rfl⟩ := compile_eq_ok.1 h₆
    obtain ⟨⟨dfiles, dtexts⟩, _, h₇, r₇⟩ := Chain.run_bind_eq_ok.1 r₆
    obtain ⟨hdl, hdr, rfl⟩ := collect_eq_ok.1 h₇
    obtain ⟨⟨sfiles, stexts⟩, _, h₈, r₈⟩ := Chain.run_bind_eq_ok.1 r₇
    obtain ⟨hsl, hsr, rfl⟩ := collect_eq_ok.1 h₈
    obtain ⟨_, _, h₉, r₉⟩ := Chain.run_bind_eq_ok.1 r₈
    cases h₉
    obtain ⟨_, _, h₁₀, r₁₀⟩ := Chain.run_bind_eq_ok.1 r₉
    cases h₁₀
    obtain ⟨_, _, h₁₁, r₁₁⟩ := Chain.run_bind_eq_ok.1 r₁₀
    obtain ⟨scripted, hscripted, rfl⟩ := onDisk_eq_ok.1 h₁₁
    obtain ⟨_, _, h₁₂, r₁₂⟩ := Chain.run_bind_eq_ok.1 r₁₁
    obtain ⟨declared, hdeclared, rfl⟩ := onDisk_eq_ok.1 h₁₂
    obtain ⟨_, _, h₁₃, r₁₃⟩ := Chain.run_bind_eq_ok.1 r₁₂
    obtain ⟨cleared, hcleared, rfl⟩ := onDisk_eq_ok.1 h₁₃
    obtain ⟨_, _, h₁₄, r₁₄⟩ := Chain.run_bind_eq_ok.1 r₁₃
    obtain ⟨last, hlast, rfl⟩ := onDisk_eq_ok.1 h₁₄
    cases r₁₄
    exact ⟨⟨source, ns, includes, made, outcome, served, outcome', compiled, dfiles, dtexts, sfiles, stexts, scripted,
      declared, cleared, hread, hnamed, by simpa using hnew, hresolved, hmade, hserved, hcompiled, hs, hdl, hdr, hsl,
      hsr, hscripted, hdeclared, hcleared, hlast⟩, rfl, rfl⟩

/-- The modules of a source on its own, from the steps that lead to them. -/
theorem composes_of {fs made compiled : FileSystem} {source : Source} {ns : Namespace} {includes : Includes}
    {outcome : Outcome} {declarationFiles scriptFiles : List Path} {declarationTexts scriptTexts : List Text}
    (hread : readSource fs file = .ok source) (hnamed : source.ownNamespace source.identifier = .ok ns)
    (hresolved : resolveIncludes setup.search fs source = .ok includes)
    (hmade : FileSystem.makeDirs (Path.join setup.scratch ns) fs = .ok () made)
    (hcompiled : setup.compiler (requestOf setup file (Path.join setup.scratch ns) .javaScript
      setup.settings.scriptOptions) made = .ok outcome compiled)
    (hsuccess : outcome.success = true)
    (hdl : listFiles compiled (Path.join setup.scratch ns) Output.declarationSuffix = .ok declarationFiles)
    (hdr : readFiles compiled declarationFiles = .ok declarationTexts)
    (hsl : listFiles compiled (Path.join setup.scratch ns) Output.scriptSuffix = .ok scriptFiles)
    (hsr : readFiles compiled scriptFiles = .ok scriptTexts) :
    Composes setup fs file (modulesOf setup source ns includes scriptTexts declarationTexts) := by
  have hrun : compose setup file ⟨fs, [], []⟩ =
      .ok (modulesOf setup source ns includes scriptTexts declarationTexts)
        ⟨compiled, [requestOf setup file (Path.join setup.scratch ns) .javaScript setup.settings.scriptOptions],
          []⟩ := by
    refine Chain.run_bind_eq_ok.2 ⟨source, _, look_eq_ok.2 ⟨hread, rfl⟩, ?_⟩
    refine Chain.run_bind_eq_ok.2 ⟨ns, _, orStop_eq_ok.2 ⟨hnamed, rfl⟩, ?_⟩
    refine Chain.run_bind_eq_ok.2 ⟨includes, _, look_eq_ok.2 ⟨hresolved, rfl⟩, ?_⟩
    refine Chain.run_bind_eq_ok.2 ⟨(), _, onDisk_eq_ok.2 ⟨made, hmade, rfl⟩, ?_⟩
    refine Chain.run_bind_eq_ok.2 ⟨(), _, compile_eq_ok.2 ⟨outcome, compiled, hcompiled, hsuccess, rfl⟩, ?_⟩
    refine Chain.run_bind_eq_ok.2 ⟨(declarationFiles, declarationTexts), _, collect_eq_ok.2 ⟨hdl, hdr, rfl⟩, ?_⟩
    exact Chain.run_bind_eq_ok.2 ⟨(scriptFiles, scriptTexts), _, collect_eq_ok.2 ⟨hsl, hsr, rfl⟩, rfl⟩
  unfold Composes runFrom
  rw [hrun]

end

end ThriftModules.Run
