import ThriftModules.Proofs.Idl.Resolved
import ThriftModules.Proofs.Output.Replaced
import ThriftModules.Proofs.Run.Independent
import ThriftModules.Proofs.Run.Visits

/-!
# Old output does not show in a new run

* `extensional_writeAtomically`, `extensional_removeFiles`, `extensional_mergeScripts` : what a run does to files goes by
  what stands where;
* `SameJournal` : journals that record the same, with files that are the same;
* `respects_processAll`, `respects_generateIn` : a run cannot tell such journals apart, if the compiler cannot;
* `generate_forgets` : a run comes to the same whatever stood at its output path, and so does a second run on what the
  first one has left.
-/

namespace ThriftModules.Output

set_option autoImplicit false

open FileSystem (Extensional Same extensional_inspect)
open Chain (respects_get_bind respects_pure respects_throw)

section
variable {fs fs' : FileSystem}

theorem listFiles_of_same (h : Same fs fs') (dir : Path) (suffix : Text) :
    listFiles fs' dir suffix = listFiles fs dir suffix := by
  unfold Output.listFiles FileSystem.walkedFiles
  rw [h.walk]

theorem readFiles_of_same (h : Same fs fs') (files : List Path) : readFiles fs' files = readFiles fs files :=
  readFiles_congr fun file _ => h.readText file

theorem extensional_removeFiles (files : List Path) : Extensional (removeFiles files) := by
  induction files with
  | nil => exact respects_pure ()
  | cons file rest ih => exact ((FileSystem.extensional_removeFile file).orFail _).bind fun _ => ih

theorem extensional_writeAtomically (path : Path) (text : Text) : Extensional (writeAtomically path text) := by
  unfold writeAtomically
  cases Path.parent? path with
  | none => exact respects_throw _
  | some dir =>
    refine ((FileSystem.extensional_makeTemp dir _).orFail _).bind fun temp => respects_get_bind fun fs fs' h => ?_
    obtain ⟨r, g, g', hg, hg', hs⟩ := (FileSystem.extensional_renameFile path temp).runOn h
    rw [hg, hg']
    cases r with
    | ok u => exact .ok hs
    | error e => exact .error (hs.erase temp)

theorem extensional_mergeScripts (tree : Tree) : Extensional tree.mergeScripts := by
  unfold Tree.mergeScripts
  refine (extensional_inspect fun h => listFiles_of_same h _ _).bind fun modules => ?_
  refine (extensional_inspect fun h => readFiles_of_same h _).bind fun bodies => ?_
  exact (extensional_removeFiles modules).bind fun _ => (extensional_writeAtomically _ _).bind fun _ => respects_pure _

end

end ThriftModules.Output

namespace ThriftModules.Run

set_option autoImplicit false

open Idl (SearchPath)
open Output (Tree NamesLinkAt wiped)
open FileSystem (DiskM Extensional Frame Same)
open Chain (Alike Respects respects_modify respects_pure respects_throw)

/-- The journals record the same, with files that are the same. -/
structure SameJournal (j j' : Journal) : Prop where
  files : Same j.files j'.files
  requests : j'.requests = j.requests
  warnings : j'.warnings = j.warnings

section
variable {ε α : Type} {fs fs' : FileSystem} {rename : ε → RunError}

/-! ## Steps of a run -/

theorem respects_onDisk {x : DiskM ε α} (hx : Extensional x) : Respects SameJournal (onDisk rename x) := by
  intro j j' h
  unfold onDisk
  rw [h.requests, h.warnings]
  rcases (hx h.files).elim with ⟨a, g, g', hg, hg', hs⟩ | ⟨e, g, g', hg, hg', hs⟩ <;> rw [hg, hg']
  · exact .ok ⟨hs, rfl, rfl⟩
  · exact .error ⟨hs, rfl, rfl⟩

theorem respects_look {f : FileSystem → Except ε α} (hf : ∀ {fs fs'}, Same fs fs' → f fs' = f fs) :
    Respects SameJournal (look rename f) :=
  respects_onDisk (FileSystem.extensional_inspect hf)

theorem respects_orStop (x : Except ε α) : Respects SameJournal (orStop rename x) := by
  cases x with
  | ok a => exact respects_pure a
  | error e => exact respects_throw _

theorem respects_warnMissing (source : Path) (kind : ModuleKind) (missing : List Module.Missing) :
    Respects SameJournal (warnMissing source kind missing) :=
  respects_modify fun _ _ h => ⟨h.files, h.requests, by rw [h.warnings]⟩

theorem discover_of_same (h : Same fs fs') (root : Path) : SearchPath.discover fs' root = SearchPath.discover fs root := by
  unfold SearchPath.discover FileSystem.walkedDirs
  rw [h.walk]

variable {setup : Setup}

theorem respects_compile (hcompiler : ∀ request, Extensional (setup.compiler request)) (source outputDir : Path)
    (target : Target) (options : Text) : Respects SameJournal (compile setup source outputDir target options) := by
  unfold compile
  refine (respects_modify fun _ _ h => ⟨h.files, by rw [h.requests], h.warnings⟩).bind fun _ => ?_
  refine (respects_onDisk (hcompiler _)).bind fun outcome => ?_
  split_ifs
  · exact respects_throw _
  · exact respects_pure _

theorem respects_collect (dir : Path) (suffix : Text) : Respects SameJournal (collect dir suffix) := by
  unfold collect
  refine (respects_look fun h => Output.listFiles_of_same h _ _).bind fun files => ?_
  exact (respects_look fun h => Output.readFiles_of_same h _).bind fun texts => respects_pure _

theorem respects_draft (hcompiler : ∀ request, Extensional (setup.compiler request)) (taken : List Namespace)
    (file : Path) : Respects SameJournal (draft setup taken file) := by
  unfold draft
  refine (respects_look fun h => Idl.readSource_congr (h.stat file)).bind fun source => ?_
  refine (respects_orStop _).bind fun ns => ?_
  dsimp only
  split
  · exact respects_throw _
  refine (respects_look fun h => Idl.resolveIncludes_congr fun _ _ _ _ => h.stat _).bind fun includes => ?_
  refine (respects_onDisk (FileSystem.extensional_makeDirs _)).bind fun _ => ?_
  refine (respects_compile hcompiler _ _ _ _).bind fun _ => ?_
  refine (respects_compile hcompiler _ _ _ _).bind fun _ => ?_
  refine (respects_collect _ _).bind fun declarations => ?_
  exact (respects_collect _ _).bind fun scripts => respects_pure _

theorem respects_publish (file : Path) (d : Draft) : Respects SameJournal (publish setup file d) := by
  unfold publish
  refine (respects_warnMissing _ _ _).bind fun _ => (respects_warnMissing _ _ _).bind fun _ => ?_
  refine (respects_onDisk (Output.extensional_writeAtomically _ _)).bind fun _ => ?_
  refine (respects_onDisk (Output.extensional_writeAtomically _ _)).bind fun _ => ?_
  refine (respects_onDisk (Output.extensional_removeFiles _)).bind fun _ => ?_
  exact (respects_onDisk (Output.extensional_removeFiles _)).bind fun _ => respects_pure _

theorem respects_processAll (hcompiler : ∀ request, Extensional (setup.compiler request)) (done : Summary)
    (files : List Path) : Respects SameJournal (processAll setup done files) := by
  induction files generalizing done with
  | nil => exact respects_pure done
  | cons file rest ih =>
    unfold processAll
    rw [processSource_eq]
    exact ((respects_draft hcompiler _ file).bind fun d => respects_publish file d).bind fun _ => ih _

theorem extensional_writing (plan : Path → Target → List (OsText × Text)) (request : Request) :
    Extensional (writing plan request) := by
  have hall : ∀ dir files, Extensional (writeAll dir files) := by
    intro dir files
    induction files with
    | nil => exact respects_pure ()
    | cons file rest ih => exact ((FileSystem.extensional_writeFile _ _).orFail _).bind fun _ => ih
  exact (hall _ _).bind fun _ => respects_pure _

end

/-! ## Whole runs -/

section
variable {settings : Settings} {compiler : Compiler} {scratch : Path} {tree : Tree} {fs fs' made : FileSystem}

theorem respects_generateIn (hcompiler : ∀ request, Extensional (compiler request)) :
    Respects SameJournal (generateIn settings compiler tree scratch) := by
  unfold generateIn
  refine (respects_look fun h => discover_of_same h _).bind fun search => ?_
  refine (respects_look fun h => Output.listFiles_of_same h _ _).bind fun files => ?_
  refine (respects_processAll hcompiler _ _).bind fun summary => ?_
  split_ifs
  · exact (respects_onDisk (Output.extensional_mergeScripts tree)).bind fun merged => respects_pure _
  · exact respects_pure _

theorem respects_inScratch {α : Type} {x : RunM α} (hx : Respects SameJournal x) :
    Respects SameJournal (inScratch scratch x) := by
  have hdiscard : ∀ {j j' : Journal}, SameJournal j j' →
      SameJournal { j with files := discard scratch j.files } { j' with files := discard scratch j'.files } := by
    intro j j' h
    obtain ⟨r, g, g', hg, hg', hs⟩ := (FileSystem.extensional_removeTree scratch).runOn h.files
    refine ⟨?_, h.requests, h.warnings⟩
    unfold discard
    rw [hg, hg']
    exact hs
  intro j j' h
  unfold inScratch
  rcases (hx h).elim with ⟨a, i, i', hi, hi', hs⟩ | ⟨e, i, i', hi, hi', hs⟩ <;> rw [hi, hi']
  · exact .ok (hdiscard hs)
  · exact .error (hdiscard hs)

/-- Runs that start with the same output tree come to the same. -/
theorem runFrom_generate_congr {tree : Tree} {made' : FileSystem} {r : Except RunError Summary} {j : Journal}
    (hcompiler : ∀ request, Extensional (compiler request))
    (htree : Tree.initialise settings.output fs = .ok tree made)
    (htree' : Tree.initialise settings.output fs' = .ok tree made') (hsame : Same made made')
    (h : runFrom (generate settings compiler scratch) fs = (r, j)) :
    ∃ j', runFrom (generate settings compiler scratch) fs' = (r, j') ∧ SameJournal j j' := by
  have hstart : Alike SameJournal (onDisk .output (Tree.initialise settings.output) ⟨fs, [], []⟩)
      (onDisk .output (Tree.initialise settings.output) ⟨fs', [], []⟩) := by
    rw [onDisk_eq_ok.2 ⟨made, htree, rfl⟩, onDisk_eq_ok.2 ⟨made', htree', rfl⟩]
    exact .ok ⟨hsame, rfl, rfl⟩
  have hends : Alike SameJournal (generate settings compiler scratch ⟨fs, [], []⟩)
      (generate settings compiler scratch ⟨fs', [], []⟩) :=
    hstart.bind fun tree => (respects_onDisk (FileSystem.extensional_makeDir scratch)).bind fun _ =>
      respects_inScratch (respects_generateIn hcompiler)
  unfold runFrom at h ⊢
  rcases hends.elim with ⟨a, i, i', hi, hi', hj⟩ | ⟨e, i, i', hi, hi', hj⟩ <;> rw [hi] at h <;> rw [hi'] <;>
    cases h <;> exact ⟨i', rfl, hj⟩

/-- A run comes to the same whatever stood at its output path; and on what it has left there, a second run comes to the
same again, if nothing else was changed. The compiler may go by anything that it finds, the output included. -/
theorem generate_forgets {tree' : Tree} {made' : FileSystem} {loc : Location} {r : Except RunError Summary}
    {j : Journal} (hwf : fs.WellFormed) (hwf' : fs'.WellFormed)
    (hup : FileSystem.StepsUpFromDirectories (wiped settings.output fs) settings.output)
    (htree : Tree.initialise settings.output fs = .ok tree made)
    (htree' : Tree.initialise settings.output fs' = .ok tree' made')
    (hloc : made.stat settings.output = .ok (loc, .directory)) (hframe : Frame fs fs' (loc <:+ ·))
    (hlink : NamesLinkAt fs settings.output loc) (hlink' : NamesLinkAt fs' settings.output loc)
    (hcompiler : ∀ request, Extensional (compiler request))
    (h : runFrom (generate settings compiler scratch) fs = (r, j)) :
    (∃ j', runFrom (generate settings compiler scratch) fs' = (r, j') ∧ SameJournal j j') ∧
      ∀ tree₂ made₂, j.files.WellFormed → Frame made j.files (loc <:+ ·) →
        NamesLinkAt j.files settings.output loc → Tree.initialise settings.output j.files = .ok tree₂ made₂ →
          ∃ j₂, runFrom (generate settings compiler scratch) j.files = (r, j₂) ∧ SameJournal j j₂ := by
  have houtput := (FileSystem.stat_eq_directory_iff.1 hloc).1
  constructor
  · obtain ⟨rfl, hsame⟩ :=
      Output.initialise_replaces hwf hwf' houtput hup htree htree' hloc hframe hlink hlink'
    exact runFrom_generate_congr hcompiler htree htree' hsame h
  · intro tree₂ made₂ hwf₂ hframe₂ hlink₂ htree₂
    obtain ⟨rfl, hsame⟩ := Output.initialise_again hwf hwf₂ houtput hup htree htree₂ hloc hframe₂ hlink₂
    exact runFrom_generate_congr hcompiler htree htree₂ hsame h

end

/-! ## Runs on small trees -/

def mergingSettings : Settings := { pairSettings with merge := true }

def pairRun : FileSystem → Except RunError Summary × Journal :=
  runFrom (generate mergingSettings (writing pairPlan) pairScratch)

def pairLinked : FileSystem := (FileSystem.cleared ["out".toList] pairFiles).put ["out".toList] (.link "idl".toList)

def pairRelinked : FileSystem := (FileSystem.runOn pairLinked (Tree.initialise mergingSettings.output)).2

def pairLeft : FileSystem := (pairRun pairFiles).2.files

def pairRemade : FileSystem := (FileSystem.runOn pairLeft (Tree.initialise mergingSettings.output)).2

/-- With an old module or a link to the sources at the output path, the run comes to the same, and so does a second one. -/
theorem generate_forgets_pair :
    (∃ j', pairRun pairLinked = ((pairRun pairFiles).1, j') ∧ SameJournal (pairRun pairFiles).2 j') ∧
      ∃ j₂, pairRun pairLeft = ((pairRun pairFiles).1, j₂) ∧ SameJournal (pairRun pairFiles).2 j₂ := by
  have hwf : pairFiles.WellFormed := FileSystem.wellFormed_of_entries (by decide +kernel)
  have hwf' : pairLinked.WellFormed := FileSystem.wellFormed_of_entries (by decide +kernel)
  have hwf₂ : pairLeft.WellFormed := FileSystem.wellFormed_of_entries (by decide +kernel)
  have htree : Tree.initialise mergingSettings.output pairFiles = .ok ⟨mergingSettings.output⟩ pairMade :=
    FileSystem.eq_ok_of_runOn (by decide +kernel)
  have htree' : Tree.initialise mergingSettings.output pairLinked = .ok ⟨mergingSettings.output⟩ pairRelinked :=
    FileSystem.eq_ok_of_runOn (by decide +kernel)
  have htree₂ : Tree.initialise mergingSettings.output pairLeft = .ok ⟨mergingSettings.output⟩ pairRemade :=
    FileSystem.eq_ok_of_runOn (by decide +kernel)
  have hloc : pairMade.stat mergingSettings.output = .ok (["out".toList], .directory) := by decide +kernel
  have hframe : Frame pairFiles pairLinked (["out".toList] <:+ ·) :=
    FileSystem.frame_of_entries rfl rfl (by decide +kernel)
  have hframe₂ : Frame pairMade pairLeft (["out".toList] <:+ ·) :=
    FileSystem.frame_of_entries (by decide +kernel) (by decide +kernel) (by decide +kernel)
  have hlstat : pairFiles.lstat mergingSettings.output = .ok (["out".toList], .directory) := by decide +kernel
  have hlstat' : pairLinked.lstat mergingSettings.output = .ok (["out".toList], .link "idl".toList) := by
    decide +kernel
  have hlstat₂ : pairLeft.lstat mergingSettings.output = .ok (["out".toList], .directory) := by decide +kernel
  have hrun : pairRun pairFiles = ((pairRun pairFiles).1, (pairRun pairFiles).2) := (Prod.eta _).symm
  have hforgets := generate_forgets hwf hwf' (FileSystem.stepsUp_of_notMem (by decide)) htree htree' hloc hframe
    (Output.namesLinkAt_of_lstat hlstat (by decide +kernel)) (Output.namesLinkAt_of_lstat hlstat' (by decide +kernel))
    (extensional_writing pairPlan) hrun
  exact ⟨hforgets.1, hforgets.2 _ _ hwf₂ hframe₂ (Output.namesLinkAt_of_lstat hlstat₂ (by decide +kernel)) htree₂⟩

def staleTidied : FileSystem := staleFiles.erase ["old.js".toList, "js".toList, "out".toList]

def idleRun (input output : String) : FileSystem → Except RunError Summary × Journal :=
  runFrom (generate { pairSettings with input := input.toList, output := output.toList } (writing fun _ _ => [])
    pairScratch)

def loopFiles : FileSystem :=
  (small [["t"], ["top"], ["idl", "top"]] []).put ["out".toList, "top".toList] (.link ".".toList)

def loopTidied : FileSystem := loopFiles.erase ["out".toList, "top".toList]

def addingPlan (source : Path) (target : Target) : List (OsText × Text) :=
  if target = .java ∧ source = "idl/a.thrift".toList then [("../../idl/b.thrift".toList, "namespace js b\n".toList)]
  else []

def addingFiles : FileSystem := small [["t"], ["idl"]] [(["a.thrift", "idl"], "namespace js a\n")]

def addingRun : FileSystem → Except RunError Summary × Journal :=
  runFrom (generate pairSettings (writing addingPlan) pairScratch)

/-- An old module stays where the output path steps up from a missing directory; a link at the output path is followed
where the path has a slash behind it, so that what it leads to is wiped; and a compiler may write the sources of the
next run. -/
theorem generate_remembers :
    (Frame staleFiles staleTidied (["out".toList] <:+ ·) ∧
      (∀ fs ∈ [staleFiles, staleTidied], (idleRun "idl" "missing/../out" fs).1 = .ok ⟨[], none, 0⟩ ∧
        (idleRun "idl" "missing/../out" fs).2.files.stat "missing/../out".toList =
          .ok (["out".toList], .directory)) ∧
      (idleRun "idl" "missing/../out" staleFiles).2.files.find? ["old.js".toList, "js".toList, "out".toList] ≠
        (idleRun "idl" "missing/../out" staleTidied).2.files.find? ["old.js".toList, "js".toList, "out".toList]) ∧
    (Frame loopFiles loopTidied (["out".toList, "top".toList] <:+ ·) ∧
      (∀ fs ∈ [loopFiles, loopTidied], (FileSystem.runOn fs (Tree.initialise "top/out/".toList)).1 =
        .ok ⟨"top/out/".toList⟩) ∧
      (idleRun "top/idl" "top/out/" loopTidied).1 = .ok ⟨[], none, 0⟩ ∧
      (idleRun "top/idl" "top/out/" loopFiles).1 ≠ .ok ⟨[], none, 0⟩) ∧
    ((addingRun addingFiles).1 = .ok ⟨["a".toList], none, 0⟩ ∧
      (addingRun (addingRun addingFiles).2.files).1 = .ok ⟨["a".toList, "b".toList], none, 0⟩) := by
  refine ⟨⟨FileSystem.frame_of_entries rfl rfl (by decide +kernel), by decide +kernel⟩,
    ⟨FileSystem.frame_of_entries rfl rfl (by decide +kernel), by decide +kernel⟩, by decide +kernel⟩

end ThriftModules.Run
