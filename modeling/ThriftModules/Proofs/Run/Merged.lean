import ThriftModules.Proofs.Output.Merging
import ThriftModules.Proofs.Run.Pairs
import ThriftModules.Proofs.Run.Swept

/-!
# A run that joins its script modules, beside one that does not

* `generateIn_merge_eq_ok` : a run that joins its script modules does so after all that one without does;
* `Begins.erased_discard` : when the scratch directory is removed, nothing else is;
* `Begins.merges` : so a merge before it is the same as one after it;
* `Joins` : two runs of which the second has joined the script modules, and that do not differ otherwise;
* `merge_concatenates` : what merging does to one tree, and that a run which merges joins the script modules of the run
  which does not;
* `merge_leaves_script_or_changes_classes` : a script that a merge leaves alone, and runs in which the script directory
  has become a link to the server's classes.
-/

namespace ThriftModules.Run

set_option autoImplicit false

open Output (Tree IsListed Erased Merges dirNames mergedName)
open Idl (SearchPath)
open FileSystem (Frame Keeps isBelow isBelow_cons)

/-! ## The last step of a run -/

section
variable {settings : Settings} {compiler : Compiler} {tree : Tree} {scratch : Path} {j j' : Journal}
  {s : Summary}

/-- Whether the script modules are to be joined does not matter to the sources. -/
theorem processAll_merge (merge : Bool) (search : SearchPath) (done : Summary) (files : List Path) :
    processAll ⟨{ settings with merge := merge }, compiler, tree, scratch, search⟩ done files =
      processAll ⟨settings, compiler, tree, scratch, search⟩ done files := by
  induction files generalizing done with
  | nil => rfl
  | cons file rest ih =>
    simp only [processAll, ih]
    rfl

/-- A run that joins its script modules does so after all that one without does. -/
theorem generateIn_merge_eq_ok
    (h : generateIn { settings with merge := true } compiler tree scratch j = .ok s j') :
    ∃ s₀ j₀ merged, generateIn { settings with merge := false } compiler tree scratch j = .ok s₀ j₀ ∧
      tree.mergeScripts j₀.files = .ok merged j'.files ∧ s = { s₀ with merged := some merged } ∧
      j' = { j₀ with files := j'.files } := by
  unfold generateIn at h
  obtain ⟨search, _, h₁, r₁⟩ := Chain.run_bind_eq_ok.1 h
  obtain ⟨files, _, h₂, r₂⟩ := Chain.run_bind_eq_ok.1 r₁
  obtain ⟨s₀, j₀, h₃, r₃⟩ := Chain.run_bind_eq_ok.1 r₂
  obtain ⟨merged, j₁, h₄, r₄⟩ := Chain.run_bind_eq_ok.1 r₃
  obtain ⟨fs', hmerge, rfl⟩ := onDisk_eq_ok.1 h₄
  cases r₄
  rw [processAll_merge] at h₃
  refine ⟨s₀, j₀, merged, ?_, hmerge, rfl, rfl⟩
  refine Chain.run_bind_eq_ok.2 ⟨search, _, h₁, Chain.run_bind_eq_ok.2 ⟨files, _, h₂, ?_⟩⟩
  refine Chain.run_bind_eq_ok.2 ⟨s₀, j₀, ?_, rfl⟩
  rw [processAll_merge]
  exact h₃

end

/-! ## The end of the scratch directory -/

section
variable {tree : Tree} {scratch : Path} {made start fs : FileSystem} {out work : Location}

/-- The scratch directory is removed with all that is in it, and nothing else is. -/
theorem Begins.erased_discard (b : Begins tree scratch made start out work) (hk : Keeps made fs)
    (hwork : fs.find? work = some .directory) :
    Erased fs (discard scratch fs) (fun x => x = work ∨ isBelow work x = true) ∧ Keeps made (discard scratch fs) := by
  have hbelow := Frame.eraseBelow fs work
  have hk' : Keeps made (fs.eraseBelow work) := hk.frame hbelow fun x hx => b.find?_scratch (.inr hx)
  have hdir : (fs.eraseBelow work).find? work = some .directory := by
    rw [hbelow.find? work (by simp), hwork]
  have hchildren : (fs.eraseBelow work).children work = [] := FileSystem.children_eq_nil fun name => by
    rw [FileSystem.find?_eraseBelow, if_pos (isBelow_cons name work)]
  have hdiscard : discard scratch fs = (fs.eraseBelow work).erase work := by
    obtain ⟨dir, name, rfl, hn⟩ := b.named
    unfold discard FileSystem.runOn
    rw [FileSystem.removeTree_of_directory ((hn.keepsDirs hk.dirs).lstat_directory hwork),
      FileSystem.removeDir_of_named (hn.keepsDirs hk'.dirs), hdir, hchildren]
    rfl
  have herased : Erased fs (discard scratch fs) (fun x => x = work ∨ isBelow work x = true) := by
    rw [hdiscard]
    exact ((Output.erased_eraseBelow fs work).trans (Output.erased_erase _ b.work_ne_nil)).congr fun x => or_comm
  exact ⟨herased, hk.frame herased.frame fun x => b.find?_scratch⟩

end

/-! ## Two runs -/

/-- A path stands for the same directory in both file systems, with the same below it. -/
def SameBelow (fs fs' : FileSystem) (dir : Path) : Prop :=
  ∃ loc, fs.stat dir = .ok (loc, .directory) ∧ fs'.stat dir = .ok (loc, .directory) ∧
    ∀ x, isBelow loc x = true → fs'.find? x = fs.find? x

/-- The second of two runs has joined the script modules that the first has left, and otherwise both have done the
same. -/
structure Joins (tree : Tree) (s s' : Summary) (j j' : Journal) : Prop where
  modules : s'.modules = s.modules
  missing : s'.missing = s.missing
  merged : s'.merged = some tree.mergedPath
  requests : j'.requests = j.requests
  warnings : j'.warnings = j.warnings
  scripts : ∃ dir files, j.files.stat tree.scriptDir = .ok (dir, .directory) ∧
    j'.files.stat tree.scriptDir = .ok (dir, .directory) ∧ Merges j.files j'.files dir files
  classes : SameBelow j.files j'.files tree.javaDir
  declarations : SameBelow j.files j'.files tree.declarationDir

section
variable {tree : Tree} {scratch merged : Path} {made start fs fs' : FileSystem} {out work : Location}
  {taken : List Namespace}

/-- What a merge between two sources changes lies in the script directory, and not in the scratch directory. -/
theorem Begins.merge_apart {files : List (List OsText × Text)} {x : Location}
    (b : Begins tree scratch made start out work) (h : Swept start out work taken fs)
    (hm : Merges fs fs' ("js".toList :: out) files)
    (hx : x = mergedName :: "js".toList :: out ∨ IsListed fs Output.scriptSuffix ("js".toList :: out) x) :
    isBelow ("js".toList :: out) x = true ∧ ¬(x = work ∨ isBelow work x = true) := by
  have hwork := (b.keeps h.frame).find? _ _ b.find?_work
  rcases hx with rfl | hx
  · refine ⟨isBelow_cons _ _, ?_⟩
    rintro (rfl | hb)
    · exact hm.place hwork
    · rw [b.not_below_module (by decide)] at hb
      cases hb
  · refine ⟨hx.1, ?_⟩
    rintro (rfl | hb)
    · obtain ⟨-, _, _, _, _, -, -, he⟩ := hx
      rw [hwork] at he
      cases he
    · exact h.noScript x ⟨hb, hx.2⟩

/-- A merge between two sources, and the scratch directory gone after it: the scripts that would be there without the
merge are joined, and the other directories of the output tree are as they would be. -/
theorem Begins.merges (b : Begins tree scratch made start out work) (h : Swept start out work taken fs)
    (hmerge : tree.mergeScripts fs = .ok merged fs') :
    merged = tree.mergedPath ∧
      (∃ dir files, (discard scratch fs).stat tree.scriptDir = .ok (dir, .directory) ∧
        (discard scratch fs').stat tree.scriptDir = .ok (dir, .directory) ∧
          Merges (discard scratch fs) (discard scratch fs') dir files) ∧
      ∀ name ∈ dirNames, name ≠ "js".toList →
        SameBelow (discard scratch fs) (discard scratch fs') (Path.join tree.root name) := by
  obtain ⟨rfl, dir, files, hs, hm⟩ := Output.mergeScripts_eq_ok h.wellFormed hmerge
  have hjs : "js".toList ∈ dirNames := by decide
  have hk := b.keeps_made h.frame
  have hwork := (b.keeps h.frame).find? _ _ b.find?_work
  obtain rfl : "js".toList :: out = dir := by
    have hdir : fs.stat tree.scriptDir = .ok ("js".toList :: out, .directory) := (b.reaches_dir hk hjs).2
    rw [hs] at hdir
    cases hdir
    rfl
  -- the merge leaves alone what was there before the run, and the scratch directory
  have hk' : Keeps made fs' := hk.frame hm.frame fun x hx => b.fresh.empty _ hjs x (b.merge_apart h hm hx).1
  have hwork' : fs'.find? work = some .directory := by
    rw [hm.frame.find? work fun hx => (b.merge_apart h hm hx).2 (.inl rfl), hwork]
  obtain ⟨herased, hkept⟩ := b.erased_discard hk hwork
  obtain ⟨herased', hkept'⟩ := b.erased_discard hk' hwork'
  have hfinal := hm.erased herased herased' (fun x hx => (b.merge_apart h hm (.inr hx)).2)
    (b.merge_apart h hm (.inl rfl)).2
  refine ⟨rfl, ⟨_, files, (b.reaches_dir hkept hjs).2, (b.reaches_dir hkept' hjs).2, hfinal⟩, fun name hname hne => ?_⟩
  refine ⟨name :: out, (b.reaches_dir hkept hname).2, (b.reaches_dir hkept' hname).2, fun x hx => ?_⟩
  apply hfinal.frame.find?
  rintro (rfl | hlisted)
  · rw [FileSystem.not_isBelow_of_isBelow hne.symm (isBelow_cons _ _)] at hx
    cases hx
  · rw [FileSystem.not_isBelow_of_isBelow hne.symm hlisted.1] at hx
    cases hx

end

/-- A merge that succeeds joins the scripts of the tree, in listing order, and changes nothing else; so a run that joins
its script modules leaves the joined text of those that the run without leaves, and what that one leaves otherwise. -/
theorem merge_concatenates :
    (∀ (tree : Tree) (fs fs' : FileSystem) (merged : Path), fs.WellFormed →
      tree.mergeScripts fs = .ok merged fs' →
        merged = tree.mergedPath ∧
          ∃ dir files, fs.stat tree.scriptDir = .ok (dir, .directory) ∧ Merges fs fs' dir files) ∧
    ∀ (settings : Settings) (compiler : Compiler) (scratch : Path) (fs : FileSystem) (s' : Summary) (j' : Journal),
      fs.WellFormed → settings.output ≠ [] →
      FileSystem.StepsUpFromDirectories (Output.wiped settings.output fs) settings.output →
      Contained compiler →
      (∀ tree made start loc, Tree.initialise settings.output fs = .ok tree made →
        FileSystem.makeDir scratch made = .ok () start → start.stat scratch = .ok (loc, .directory) →
          isInside start tree.javaDir loc = false) →
      ['.'] ∉ s'.modules ∧ ['.', '.'] ∉ s'.modules →
      runFrom (generate { settings with merge := true } compiler scratch) fs = (.ok s', j') →
        ∃ s j, runFrom (generate { settings with merge := false } compiler scratch) fs = (.ok s, j) ∧
          Joins ⟨settings.output⟩ s s' j j' := by
  refine ⟨fun tree fs fs' merged hwf h => Output.mergeScripts_eq_ok hwf h, ?_⟩
  intro settings compiler scratch fs s' j' hwf houtput hup hc houtside hdots h
  obtain ⟨tree, made, start, -, -, -, -, htree, hscratch, -⟩ := exists_of_generate_eq_ok h
  obtain ⟨j₂, hin, rfl⟩ := runFrom_generate_eq_ok htree hscratch h
  obtain ⟨s, j₁, merged, hplain, hmerge, rfl, hlog⟩ := generateIn_merge_eq_ok hin
  obtain ⟨rfl, out, work, b⟩ :=
    exists_begins hwf houtput hup htree hscratch fun loc => houtside _ made start loc htree hscratch
  obtain ⟨search, files, -, -, hall⟩ := generateIn_eq_ok rfl hplain
  have hswept : Swept start out work s.modules j₁.files := processAll_swept b hc b.swept hdots hall
  obtain ⟨rfl, hscripts, hsame⟩ := b.merges hswept hmerge
  refine ⟨s, _, runFrom_generate_of_eq_ok htree hscratch hplain, rfl, rfl, rfl, ?_, ?_, hscripts,
    hsame _ (by decide) (by decide), hsame _ (by decide) (by decide)⟩ <;> rw [hlog]

/-! ## Runs on small trees -/

def nestedFiles : FileSystem :=
  small [["out"], ["js", "out"], ["c", "js", "out"]]
    [(["b.js", "js", "out"], "var b;"), (["all.js", "js", "out"], "var a;\n"), (["d.js", "c", "js", "out"], "var d;")]

def nestedRun : Except Output.OutputError Path × FileSystem :=
  FileSystem.runOn nestedFiles (Tree.mergeScripts ⟨"out".toList⟩)

def joinedFiles : FileSystem := declaring "all" "b"

def joinedRun (merge : Bool) : Except RunError Summary × Journal :=
  runFrom (generate { pairSettings with merge := merge } shortCompiler pairScratch) joinedFiles

def joinedStart : FileSystem :=
  (FileSystem.runOn (FileSystem.runOn joinedFiles (Tree.initialise pairSettings.output)).2
    (FileSystem.makeDir pairScratch)).2

/-- The scripts are joined in listing order, and the classes stay as they are. -/
theorem merge_concatenates_small :
    nestedRun.2.readText "out/js/all.js".toList = .ok "var a;\nvar b;\nvar d;\n".toList ∧
    (∃ files, Merges nestedFiles nestedRun.2 ["js".toList, "out".toList] files) ∧
    ∃ s s', (joinedRun false).1 = .ok s ∧ (joinedRun true).1 = .ok s' ∧ s'.modules = ["all".toList, "b".toList] ∧
      Joins ⟨pairSettings.output⟩ s s' (joinedRun false).2 (joinedRun true).2 := by
  have hnested : nestedFiles.WellFormed := FileSystem.wellFormed_of_entries (by decide +kernel)
  have hmerged : nestedRun.1 = .ok "out/js/all.js".toList := by decide +kernel
  have hjs : ∀ place, nestedFiles.stat (Tree.scriptDir ⟨"out".toList⟩) = .ok place →
      place.1 = ["js".toList, "out".toList] := by
    decide +kernel
  refine ⟨by decide +kernel, ?_, ?_⟩
  · obtain ⟨-, dir, files, hs, hmerges⟩ := merge_concatenates.1 ⟨"out".toList⟩ nestedFiles nestedRun.2 _ hnested
      (FileSystem.eq_ok_of_runOn hmerged)
    obtain rfl : dir = _ := hjs _ hs
    exact ⟨files, hmerges⟩
  have hwf : joinedFiles.WellFormed := FileSystem.wellFormed_of_entries (by decide +kernel)
  have hplan : ∀ (_ : Path) target, ∀ e ∈ scriptPlan target, Path.IsName e.1 := by
    intro _ target
    cases target <;> decide
  have houtside : ∀ place, joinedStart.stat pairScratch = .ok place →
      isInside joinedStart (Tree.javaDir ⟨pairSettings.output⟩) place.1 = false := by
    decide +kernel
  have hrun : (joinedRun true).1 = .ok ⟨["all".toList, "b".toList], some "out/js/all.js".toList, 0⟩ := by
    decide +kernel
  obtain ⟨s, j, hplain, hjoins⟩ := merge_concatenates.2 pairSettings shortCompiler pairScratch joinedFiles _ _ hwf
    (by decide) (FileSystem.stepsUp_of_notMem (by decide)) (contained_making hplan)
    (fun tree made start loc htree hscratch hloc => by
      obtain ⟨rfl, -⟩ := Output.makeAll_of_initialise hwf htree
      obtain rfl : start = joinedStart := by
        unfold joinedStart
        rw [FileSystem.runOn_of_eq_ok htree, FileSystem.runOn_of_eq_ok hscratch]
      exact houtside _ hloc)
    (by decide) (eq_ok_of_runFrom hrun)
  have hplain' : joinedRun false = (.ok s, j) := hplain
  refine ⟨s, _, ?_, hrun, rfl, ?_⟩ <;> rw [hplain']
  exact hjoins

/-- A link for a compiler to make: its name, the directories that lead there, the innermost first, and its target. -/
structure NewLink where
  name : OsText
  above : Location
  target : Path

/-- The entry at a location replaced by a link, if it stands in a directory. -/
def relink (fs : FileSystem) (name : OsText) (dir : Location) (target : Path) : FileSystem :=
  if fs.StandsInDirectory (name :: dir) then
    ((fs.eraseBelow (name :: dir)).erase (name :: dir)).put (name :: dir) (.link target)
  else fs

/-- The compiler that makes at most one link below its output directory, in place of what is there. -/
def relinking (plan : Path → Target → Option NewLink) : Compiler := fun r fs =>
  match plan r.source r.target, fs.stat r.outputDir with
  | some link, .ok (loc, .directory) => .ok ⟨some 0, []⟩ (relink fs link.name (link.above ++ loc) link.target)
  | _, _ => .ok ⟨some 0, []⟩ fs

theorem frame_relink (fs : FileSystem) (name : OsText) (dir : Location) (target : Path) :
    Frame fs (relink fs name dir target) (fun x => x = name :: dir ∨ isBelow (name :: dir) x = true) := by
  have hne : name :: dir ≠ [] := List.cons_ne_nil _ _
  unfold relink
  split
  · refine ((Frame.eraseBelow fs _).mono fun x hx => .inr hx).trans ?_
    exact ((Frame.erase _ hne).mono fun x hx => .inl hx).trans ((Frame.put _ hne _).mono fun x hx => .inl hx)
  · exact Frame.refl _ _

theorem relink_wellFormed {fs : FileSystem} (hwf : fs.WellFormed) (name : OsText) (dir : Location) (target : Path) :
    (relink fs name dir target).WellFormed := by
  have hne : name :: dir ≠ [] := List.cons_ne_nil _ _
  unfold relink
  split
  · next hstands =>
    obtain ⟨hdir, hname, hshort⟩ := hstands name rfl
    have hgone : ∀ x, isBelow (name :: dir) x = true → (fs.eraseBelow (name :: dir)).find? x = none := by
      intro x hx
      rw [FileSystem.find?_eraseBelow, if_pos hx]
    have hkept : ((fs.eraseBelow (name :: dir)).erase (name :: dir)).find? dir = some .directory := by
      rw [FileSystem.find?_erase hne, if_neg (List.cons_ne_self name dir).symm, FileSystem.find?_eraseBelow, if_neg]
      · exact hdir
      · intro hb
        have := FileSystem.length_lt_of_isBelow hb
        simp at this
    refine ((hwf.eraseBelow _).erase hgone).put hname hshort hkept (.inl ?_)
    rw [FileSystem.find?_erase hne, if_pos rfl]
    simp
  · exact hwf

theorem contained_relinking (plan : Path → Target → Option NewLink) : Contained (relinking plan) := by
  constructor
  intro r fs loc hwf hs
  unfold relinking
  rw [hs]
  cases plan r.source r.target with
  | none => exact ⟨Frame.refl _ _, hwf⟩
  | some link =>
    have hbelow : isBelow loc (link.name :: (link.above ++ loc)) = true :=
      FileSystem.isBelow_iff.2 ⟨link.name :: link.above, List.cons_ne_nil _ _, rfl⟩
    refine ⟨(frame_relink fs _ _ _).mono ?_, relink_wellFormed hwf _ _ _⟩
    rintro x (rfl | hx)
    · exact hbelow
    · exact FileSystem.isBelow_trans hbelow hx

/-- A compiler that changes nothing but what lies below its output directory, and yet the server's classes that a run
leaves depend on whether it joins its script modules. -/
structure MergeChangesClasses (settings : Settings) (compiler : Compiler) (scratch : Path) (fs : FileSystem) : Prop where
  wellFormed : fs.WellFormed
  contained : Contained compiler
  differ : ∃ s s' j j', runFrom (generate { settings with merge := false } compiler scratch) fs = (.ok s, j) ∧
    runFrom (generate { settings with merge := true } compiler scratch) fs = (.ok s', j') ∧
      ¬SameBelow j.files j'.files (Tree.javaDir ⟨settings.output⟩)

/-- Both runs succeed, and the merged module stands among the server's classes where it was put. -/
def AddsClass (settings : Settings) (compiler : Compiler) (scratch : Path) (fs : FileSystem) : Prop :=
  (∀ e ∈ fs.entries, fs.StandsInDirectory e.1) ∧
    ∀ merge, (runFrom (generate { settings with merge := merge } compiler scratch) fs).1.isOk = true ∧
      (entryOf (runFrom (generate { settings with merge := merge } compiler scratch) fs).2.files
        (Tree.javaDir ⟨settings.output⟩) mergedName).isSome = merge

instance (settings : Settings) (compiler : Compiler) (scratch : Path) (fs : FileSystem) :
    Decidable (AddsClass settings compiler scratch fs) :=
  inferInstanceAs (Decidable (_ ∧ ∀ _, _ ∧ _))

theorem SameBelow.entryOf {fs fs' : FileSystem} {dir : Path} (h : SameBelow fs fs' dir) (name : OsText) :
    entryOf fs' dir name = entryOf fs dir name := by
  obtain ⟨loc, hs, hs', hsame⟩ := h
  rw [entryOf_of_stat hs, entryOf_of_stat hs', hsame _ (isBelow_cons name loc)]

theorem AddsClass.changes {settings : Settings} {plan : Path → Target → Option NewLink} {scratch : Path}
    {fs : FileSystem} (h : AddsClass settings (relinking plan) scratch fs) :
    MergeChangesClasses settings (relinking plan) scratch fs := by
  obtain ⟨hstands, hruns⟩ := h
  have hrun : ∀ merge, ∃ s, runFrom (generate { settings with merge := merge } (relinking plan) scratch) fs =
      (.ok s, (runFrom (generate { settings with merge := merge } (relinking plan) scratch) fs).2) := by
    intro merge
    have hok := (hruns merge).1
    cases hr : (runFrom (generate { settings with merge := merge } (relinking plan) scratch) fs).1 with
    | error e =>
      rw [hr] at hok
      cases hok
    | ok s => exact ⟨s, eq_ok_of_runFrom hr⟩
  obtain ⟨s, hs⟩ := hrun false
  obtain ⟨s', hs'⟩ := hrun true
  refine ⟨FileSystem.wellFormed_of_entries hstands, contained_relinking plan, s, s', _, _, hs, hs', fun hsame => ?_⟩
  have hplain := (hruns false).2
  rw [← hsame.entryOf, (hruns true).2] at hplain
  cases hplain

/-- One source, and a link to the server's classes in place of the script directory. -/
def aliasedFiles (dirs : List (List String)) (dir : List String) : FileSystem :=
  (small ([["t"], ["idl"]] ++ dirs) [(["a", "idl"], "namespace js a")]).put ("js".toList :: dir.map String.toList)
    (.link "java".toList)

/-- The script directory for the second source is made a link to the server's classes, through one made for the
first. -/
def relinkPlan (place : Target) (above : List String) (target : String) (s : Path) (t : Target) : Option NewLink :=
  if s = "idl/b".toList then if t = .javaScript then some ⟨"js".toList, [], "java".toList⟩ else none
  else if t = place then some ⟨"b".toList, above.map String.toList, target.toList⟩ else none

def parentPlan (s : Path) (t : Target) : Option NewLink :=
  if s = "idl/a".toList ∧ t = .javaScript then some ⟨"js".toList, [], "java".toList⟩ else none

/-- A script under a name that is the encoding of no text. -/
def foreignScript : FileSystem :=
  { FileSystem.bare [] with
    entries := [(["out".toList], .directory), (["js".toList, "out".toList], .directory),
      (["\xff.js".toList, "js".toList, "out".toList], .file (.text "var x;".toList) false)] }

/-- A merge leaves a script alone whose name is the encoding of no text. Merging changes the server's classes where the
output directory is not wiped, where the scratch directory lies in them, and where a namespace is one dot or two. -/
theorem merge_leaves_script_or_changes_classes :
    (foreignScript.WellFormed ∧ OsText.ofText Output.scriptSuffix <:+ "\xff.js".toList ∧
      ∃ fs', Tree.mergeScripts ⟨"out".toList⟩ foreignScript = .ok "out/js/all.js".toList fs' ∧
        fs'.readText "out/js/all.js".toList = .ok [] ∧
        fs'.find? ["\xff.js".toList, "js".toList, "out".toList] = some (.file (.text "var x;".toList) false)) ∧
    MergeChangesClasses staleSettings (relinking fun _ _ => none) pairScratch (aliasedFiles [["out"]] ["out"]) ∧
    MergeChangesClasses { pairSettings with output := [] } (relinking fun _ _ => none) pairScratch
      (aliasedFiles [] []) ∧
    MergeChangesClasses pairSettings (relinking (relinkPlan .java ["s"] "../..")) "out/java/s".toList
      (declaring "a" "b") ∧
    MergeChangesClasses pairSettings (relinking parentPlan) "out/s".toList (declaring ".." "b") ∧
    MergeChangesClasses pairSettings (relinking (relinkPlan .javaScript [] "../../out")) pairScratch
      (declaring "." "b") := by
  refine ⟨⟨FileSystem.wellFormed_of_entries ?_, ?_, _, rfl, ?_, ?_⟩, AddsClass.changes ?_, AddsClass.changes ?_,
    AddsClass.changes ?_, AddsClass.changes ?_, AddsClass.changes ?_⟩ <;>
      decide +kernel

end ThriftModules.Run
