import ThriftModules.Proofs.Ends
import ThriftModules.Proofs.Run.Alone

/-!
# The visits of a run

* `draft`, `publish` : the two halves of the way of a source, up to its modules as texts and from there to its modules as
  files (`processSource_eq`);
* `Drafted` : what a draft comes from (`draft_eq_ok`);
* `ends_onDisk`, `ends_look`, `ends_compile`, `ends_collect`, `ends_inScratch` : how the steps of a run end;
* `Visit`, `visits` : the calls that a run makes for its sources, each with the state that it starts from;
* `processAll_ends` : what each visit preserves, the run preserves;
* `processAll_eq_ok` : a run that succeeds visits every source, and its modules are those of its visits;
* `prepare`, `visitsOf` : what a run does before its first visit, and the visits that follow (`visitsOf_eq`).
-/

namespace ThriftModules.Run

set_option autoImplicit false

open Idl (Source Includes SearchPath readSource resolveIncludes)
open Output (Tree listFiles readFiles removeFiles writeAtomically)
open Chain (Ends)

/-! ## Two halves -/

/-- What a source comes to before anything of it is published. -/
structure Draft where
  source : Source
  includes : Includes
  modules : Modules
  /-- The generated files that the modules are made of, which are removed in the end. -/
  declarationFiles : List Path
  scriptFiles : List Path

def draft (setup : Setup) (taken : List Namespace) (file : Path) : RunM Draft := do
  let source ← look .source (readSource · file)
  let ns ← orStop .source (source.ownNamespace source.identifier)
  if taken.contains ns then throw (.repeated ns file)
  let includes ← look .source (resolveIncludes setup.search · source)
  let workDir := Path.join setup.scratch ns
  onDisk (.workDir workDir) (FileSystem.makeDirs workDir)
  compile setup file setup.tree.javaDir .java setup.settings.javaOptions
  compile setup file workDir .javaScript setup.settings.scriptOptions
  let (declarationFiles, declarationTexts) ← collect workDir Output.declarationSuffix
  let (scriptFiles, scriptTexts) ← collect workDir Output.scriptSuffix
  return ⟨source, includes, modulesOf setup source ns includes scriptTexts declarationTexts, declarationFiles,
    scriptFiles⟩

def publish (setup : Setup) (file : Path) (d : Draft) : RunM (Namespace × Nat) := do
  warnMissing file .script d.modules.script.missing
  warnMissing file .declarations d.modules.declarations.missing
  onDisk .output (writeAtomically (setup.tree.scriptModule d.modules.ns) d.modules.script.text)
  onDisk .output (writeAtomically (setup.tree.declarationModule d.modules.ns) d.modules.declarations.text)
  onDisk .output (removeFiles d.declarationFiles)
  onDisk .output (removeFiles d.scriptFiles)
  return (d.modules.ns, d.modules.missing)

theorem processSource_eq (setup : Setup) (taken : List Namespace) (file : Path) :
    processSource setup taken file = draft setup taken file >>= publish setup file := by
  unfold processSource draft
  rw [bind_assoc]
  refine bind_congr fun source => ?_
  rw [bind_assoc]
  refine bind_congr fun ns => ?_
  dsimp only
  split
  · rfl
  · simp only [bind_assoc, pure_bind]
    rfl

/-- What a draft comes from: the source as it is read first, and the generated files as they are in the end. -/
structure Drafted (setup : Setup) (taken : List Namespace) (file : Path) (fs : FileSystem) (d : Draft)
    (fs' : FileSystem) : Prop where
  read : readSource fs file = .ok d.source
  named : d.source.ownNamespace d.source.identifier = .ok d.modules.ns
  new : d.modules.ns ∉ taken
  resolved : resolveIncludes setup.search fs d.source = .ok d.includes
  declarationsListed : listFiles fs' (Path.join setup.scratch d.modules.ns) Output.declarationSuffix =
    .ok d.declarationFiles
  scriptsListed : listFiles fs' (Path.join setup.scratch d.modules.ns) Output.scriptSuffix = .ok d.scriptFiles
  composed : ∃ scriptTexts declarationTexts, readFiles fs' d.scriptFiles = .ok scriptTexts ∧
    readFiles fs' d.declarationFiles = .ok declarationTexts ∧
    d.modules = modulesOf setup d.source d.modules.ns d.includes scriptTexts declarationTexts

theorem draft_eq_ok {setup : Setup} {taken : List Namespace} {file : Path} {d : Draft} {j j' : Journal}
    (h : draft setup taken file j = .ok d j') : Drafted setup taken file j.files d j'.files := by
  unfold draft at h
  obtain ⟨source, _, h₁, r₁⟩ := Chain.run_bind_eq_ok.1 h
  obtain ⟨hread, rfl⟩ := look_eq_ok.1 h₁
  obtain ⟨ns, _, h₂, r₂⟩ := Chain.run_bind_eq_ok.1 r₁
  obtain ⟨hnamed, rfl⟩ := orStop_eq_ok.1 h₂
  simp only at r₂
  cases hnew : taken.contains ns with
  | true =>
    rw [hnew] at r₂
    cases r₂
  | false =>
    rw [hnew, if_neg Bool.false_ne_true] at r₂
    obtain ⟨includes, _, h₃, r₃⟩ := Chain.run_bind_eq_ok.1 r₂
    obtain ⟨hresolved, rfl⟩ := look_eq_ok.1 h₃
    obtain ⟨_, _, -, r₄⟩ := Chain.run_bind_eq_ok.1 r₃
    obtain ⟨_, _, -, r₅⟩ := Chain.run_bind_eq_ok.1 r₄
    obtain ⟨_, _, -, r₆⟩ := Chain.run_bind_eq_ok.1 r₅
    obtain ⟨⟨declarationFiles, declarationTexts⟩, _, h₇, r₇⟩ := Chain.run_bind_eq_ok.1 r₆
    obtain ⟨hdl, hdr, rfl⟩ := collect_eq_ok.1 h₇
    obtain ⟨⟨scriptFiles, scriptTexts⟩, _, h₈, r₈⟩ := Chain.run_bind_eq_ok.1 r₇
    obtain ⟨hsl, hsr, rfl⟩ := collect_eq_ok.1 h₈
    cases r₈
    have hnew' : ns ∉ taken := by simpa using hnew
    exact ⟨hread, hnamed, hnew', hresolved, hdl, hsl, scriptTexts, declarationTexts, hsr, hdr, rfl⟩

/-- A source that is processed was drafted first, and its modules are those of the draft. -/
theorem exists_draft {setup : Setup} {taken : List Namespace} {file : Path} {r : Namespace × Nat} {j j' : Journal}
    (h : processSource setup taken file j = .ok r j') :
    ∃ d j₁, draft setup taken file j = .ok d j₁ ∧ r = (d.modules.ns, d.modules.missing) := by
  rw [processSource_eq] at h
  obtain ⟨d, j₁, hd, hp⟩ := Chain.run_bind_eq_ok.1 h
  refine ⟨d, j₁, hd, ?_⟩
  unfold publish at hp
  obtain ⟨_, _, -, r₁⟩ := Chain.run_bind_eq_ok.1 hp
  obtain ⟨_, _, -, r₂⟩ := Chain.run_bind_eq_ok.1 r₁
  obtain ⟨_, _, -, r₃⟩ := Chain.run_bind_eq_ok.1 r₂
  obtain ⟨_, _, -, r₄⟩ := Chain.run_bind_eq_ok.1 r₃
  obtain ⟨_, _, -, r₅⟩ := Chain.run_bind_eq_ok.1 r₄
  obtain ⟨_, _, -, r₆⟩ := Chain.run_bind_eq_ok.1 r₅
  cases r₆
  rfl

/-! ## How a step ends -/

section
variable {ε α : Type} {rename : ε → RunError} {j : Journal} {P : α → Journal → Prop} {E : RunError → Journal → Prop}

theorem ends_onDisk {x : FileSystem.DiskM ε α}
    (h : Ends (fun a fs => P a { j with files := fs }) (fun e fs => E (rename e) { j with files := fs }) (x j.files)) :
    Ends P E (onDisk rename x j) := by
  unfold onDisk
  cases hx : x j.files with
  | ok a fs => exact h.ok hx
  | error e fs => exact h.error hx

theorem ends_look {f : FileSystem → Except ε α} (hok : ∀ a, f j.files = .ok a → P a j)
    (herror : ∀ e, f j.files = .error e → E (rename e) j) : Ends P E (look rename f j) := by
  apply ends_onDisk
  unfold FileSystem.inspect
  cases hf : f j.files with
  | ok a => exact hok a hf
  | error e => exact herror e hf

theorem ends_orStop {x : Except ε α} (hok : ∀ a, x = .ok a → P a j) (herror : ∀ e, x = .error e → E (rename e) j) :
    Ends P E (orStop rename x j) := by
  cases x with
  | ok a => exact hok a rfl
  | error e => exact herror e rfl

/-- However a compilation ends, what holds of the file system when the compiler has ended holds then. -/
theorem ends_compile {setup : Setup} {source outputDir : Path} {target : Target} {options : Text}
    {F : FileSystem → Prop}
    (h : Ends (fun _ fs => F fs) (fun _ fs => F fs)
      (setup.compiler (requestOf setup source outputDir target options) j.files)) :
    Ends (fun _ j' => F j'.files) (fun _ j' => F j'.files) (compile setup source outputDir target options j) := by
  have hstart : Ends (fun _ j' => F j'.files) (fun _ j' => F j'.files)
      (onDisk RunError.notRun (setup.compiler (requestOf setup source outputDir target options))
        { j with requests := j.requests ++ [requestOf setup source outputDir target options] }) :=
    ends_onDisk h
  refine hstart.bind fun outcome j' _ hF => ?_
  cases outcome.success <;> exact hF

theorem ends_collect {dir : Path} {suffix : Text} {P : List Path × List Text → Journal → Prop}
    (hok : ∀ files texts, listFiles j.files dir suffix = .ok files → P (files, texts) j) (herror : ∀ e, E e j) :
    Ends P E (collect dir suffix j) := by
  unfold collect
  refine Ends.bind (P := fun files j' => listFiles j.files dir suffix = .ok files ∧ j' = j) (E := E)
    (ends_look (fun files hl => ⟨hl, rfl⟩) fun _ _ => herror _) ?_
  rintro files _ - ⟨hl, rfl⟩
  refine Ends.bind (P := fun _ j' => j' = _) (E := E) (ends_look (fun _ _ => rfl) fun _ _ => herror _) ?_
  rintro texts _ - rfl
  exact hok files texts hl

theorem ends_inScratch {x : RunM α} {scratch : Path}
    (h : Ends (fun a j' => P a { j' with files := discard scratch j'.files })
      (fun e j' => E e { j' with files := discard scratch j'.files }) (x j)) : Ends P E (inScratch scratch x j) := by
  unfold inScratch
  cases hx : x j with
  | ok a j' => exact h.ok hx
  | error e j' => exact h.error hx

end

/-! ## Visits -/

/-- A call that a run makes for a source, with the state that it starts from. -/
structure Visit where
  setup : Setup
  taken : List Namespace
  file : Path
  journal : Journal

def Visit.drafts (v : Visit) (d : Draft) : Prop := ∃ j, draft v.setup v.taken v.file v.journal = .ok d j

/-- The source is read and declares the namespace. -/
def Visit.names (v : Visit) (ns : Namespace) : Prop :=
  ∃ source, readSource v.journal.files v.file = .ok source ∧ source.ownNamespace source.identifier = .ok ns

/-- The source is processed, and its modules are those of the namespace. -/
def Visit.finishes (v : Visit) (ns : Namespace) : Prop :=
  ∃ missing j, processSource v.setup v.taken v.file v.journal = .ok (ns, missing) j

/-- The calls that a run makes for its sources, up to the first that fails. -/
def visits (setup : Setup) : List Namespace → List Path → Journal → List Visit
  | _, [], _ => []
  | taken, file :: rest, j =>
    ⟨setup, taken, file, j⟩ ::
      match processSource setup taken file j with
      | .ok (ns, _) j' => visits setup (taken ++ [ns]) rest j'
      | .error _ _ => []

section
variable {setup : Setup} {done summary : Summary} {files : List Path} {j j' : Journal}

theorem setup_of_mem_visits {taken : List Namespace} {v : Visit} (h : v ∈ visits setup taken files j) :
    v.setup = setup := by
  induction files generalizing taken j with
  | nil => cases h
  | cons file rest ih =>
    rw [visits] at h
    rcases List.mem_cons.1 h with rfl | h
    · rfl
    · split at h
      · exact ih h
      · cases h

/-- What each visit preserves, the run preserves. -/
theorem processAll_ends {P : List Namespace → Journal → Prop} {E : RunError → Journal → Prop}
    (hstep : ∀ v ∈ visits setup done.modules files j, P v.taken v.journal →
      Ends (fun r j' => P (v.taken ++ [r.1]) j') E (processSource setup v.taken v.file v.journal))
    (h : P done.modules j) : Ends (fun s j' => P s.modules j') E (processAll setup done files j) := by
  induction files generalizing done j with
  | nil => exact h
  | cons file rest ih =>
    have hfirst := hstep ⟨setup, done.modules, file, j⟩ List.mem_cons_self h
    refine hfirst.bind fun ⟨ns, missing⟩ j₁ hx hP => ih (fun v hv hPv => hstep v ?_ hPv) hP
    rw [visits, hx]
    exact List.mem_cons_of_mem _ hv

/-- A run that succeeds visits every source, and its modules are those of its visits. -/
theorem processAll_eq_ok (h : processAll setup done files j = .ok summary j') :
    (visits setup done.modules files j).map Visit.file = files ∧
      ∃ names, List.Forall₂ Visit.finishes (visits setup done.modules files j) names ∧
        summary.modules = done.modules ++ names := by
  induction files generalizing done j with
  | nil =>
    cases h
    exact ⟨rfl, [], .nil, (List.append_nil _).symm⟩
  | cons file rest ih =>
    obtain ⟨⟨ns, missing⟩, j₁, hx, hrest⟩ := Chain.run_bind_eq_ok.1 h
    obtain ⟨hfiles, names, hall, hmodules⟩ := ih hrest
    rw [visits, hx]
    refine ⟨by rw [List.map_cons, hfiles], ns :: names, .cons ⟨missing, j₁, hx⟩ hall, ?_⟩
    rw [hmodules, List.append_assoc]
    rfl

end

/-! ## A whole run -/

/-- What a run does before its first visit: what stays the same for all sources, and the sources. -/
def prepare (settings : Settings) (compiler : Compiler) (scratch : Path) : RunM (Setup × List Path) := do
  let tree ← onDisk .output (Tree.initialise settings.output)
  onDisk .scratch (FileSystem.makeDir scratch)
  let search ← look .source (SearchPath.discover · settings.input)
  let files ← look .output (listFiles · settings.input [])
  return (⟨settings, compiler, tree, scratch, search⟩, files)

/-- The visits of a run. -/
def visitsOf (settings : Settings) (compiler : Compiler) (scratch : Path) (fs : FileSystem) : List Visit :=
  match prepare settings compiler scratch ⟨fs, [], []⟩ with
  | .ok (setup, files) j => visits setup [] files j
  | .error _ _ => []

section
variable {settings : Settings} {compiler : Compiler} {scratch : Path} {fs made start : FileSystem} {tree : Tree}
  {search : SearchPath} {files : List Path}

theorem visitsOf_eq (htree : Tree.initialise settings.output fs = .ok tree made)
    (hscratch : FileSystem.makeDir scratch made = .ok () start)
    (hsearch : SearchPath.discover start settings.input = .ok search)
    (hfiles : listFiles start settings.input [] = .ok files) :
    visitsOf settings compiler scratch fs =
      visits ⟨settings, compiler, tree, scratch, search⟩ [] files ⟨start, [], []⟩ := by
  have hprepare : prepare settings compiler scratch ⟨fs, [], []⟩ =
      .ok (⟨settings, compiler, tree, scratch, search⟩, files) ⟨start, [], []⟩ :=
    Chain.run_bind_eq_ok.2 ⟨tree, _, onDisk_eq_ok.2 ⟨made, htree, rfl⟩,
      Chain.run_bind_eq_ok.2 ⟨(), _, onDisk_eq_ok.2 ⟨start, hscratch, rfl⟩,
        Chain.run_bind_eq_ok.2 ⟨search, _, look_eq_ok.2 ⟨hsearch, rfl⟩,
          Chain.run_bind_eq_ok.2 ⟨files, _, look_eq_ok.2 ⟨hfiles, rfl⟩, rfl⟩⟩⟩⟩
  unfold visitsOf
  rw [hprepare]

/-- A run that succeeds has processed all its sources; merging leaves the list of its modules as it is. -/
theorem exists_of_generate_eq_ok {summary : Summary} {j : Journal}
    (h : runFrom (generate settings compiler scratch) fs = (.ok summary, j)) :
    ∃ tree made start search files processed j',
      Tree.initialise settings.output fs = .ok tree made ∧ FileSystem.makeDir scratch made = .ok () start ∧
      SearchPath.discover start settings.input = .ok search ∧ listFiles start settings.input [] = .ok files ∧
      processAll ⟨settings, compiler, tree, scratch, search⟩ ⟨[], none, 0⟩ files ⟨start, [], []⟩ =
        .ok processed j' ∧ summary.modules = processed.modules := by
  have hrun : generate settings compiler scratch ⟨fs, [], []⟩ = .ok summary j := by
    unfold runFrom at h
    split at h <;> cases h
    assumption
  obtain ⟨tree, _, h₁, r₁⟩ := Chain.run_bind_eq_ok.1 hrun
  obtain ⟨made, htree, rfl⟩ := onDisk_eq_ok.1 h₁
  obtain ⟨_, _, h₂, r₂⟩ := Chain.run_bind_eq_ok.1 r₁
  obtain ⟨start, hscratch, rfl⟩ := onDisk_eq_ok.1 h₂
  unfold inScratch at r₂
  split at r₂
  · next s j' hin =>
    cases r₂
    unfold generateIn at hin
    obtain ⟨search, _, h₃, r₃⟩ := Chain.run_bind_eq_ok.1 hin
    obtain ⟨hsearch, rfl⟩ := look_eq_ok.1 h₃
    obtain ⟨files, _, h₄, r₄⟩ := Chain.run_bind_eq_ok.1 r₃
    obtain ⟨hfiles, rfl⟩ := look_eq_ok.1 h₄
    obtain ⟨processed, j₁, h₅, r₅⟩ := Chain.run_bind_eq_ok.1 r₄
    refine ⟨tree, made, start, search, files, processed, j₁, htree, hscratch, hsearch, hfiles, h₅, ?_⟩
    split at r₅
    · obtain ⟨merged, j₂, -, r₆⟩ := Chain.run_bind_eq_ok.1 r₅
      cases r₆
      rfl
    · cases r₅
      rfl
  · cases r₂

end

end ThriftModules.Run
