import Mathlib.Tactic.SplitIfs
import ThriftModules.Proofs.Run.Between
import ThriftModules.Proofs.Run.Writing

/-!
# Sources do not influence each other

* `processAll_between` : a run over some sources leads from state to state, and each source comes to the modules that it
  comes to on its own;
* `ready_of_outside` : a run starts from a state with a fresh output tree and an empty scratch directory;
* `generate_independent` : a run that succeeds leaves exactly the modules that each source comes to on its own.
-/

namespace ThriftModules.Run

set_option autoImplicit false

open Idl (Source SearchPath readSource)
open Output (Tree HoldsAt listFiles dirNames)
open FileSystem (Frame Keeps Named Reaches Avoids isBelow isBelow_cons find?_put)

section
variable {setup : Setup} {start : FileSystem} {out work : Location} {done : List Modules}

/-- Each source in turn comes to the modules that it comes to on its own. -/
theorem processAll_between (hr : Ready setup start out work) (hconf : Confined setup.compiler)
    (hdet : Determined setup.compiler (reserved setup.tree setup.scratch start)) {files : List Path}
    (hclear : ∀ file ∈ files, Clear setup start file) {j j' : Journal} {summary summary' : Summary}
    (hb : Between setup start out work done j.files) (hnodup : (done.map Modules.ns).Nodup)
    (hdone : summary.modules = done.map Modules.ns) (h : processAll setup summary files j = .ok summary' j') :
    ∃ ms, List.Forall₂ (Composes setup start) files ms ∧ Between setup start out work (done ++ ms) j'.files ∧
      ((done ++ ms).map Modules.ns).Nodup ∧
      summary' = ⟨(done ++ ms).map Modules.ns, summary.merged, summary.missing + (ms.map Modules.missing).sum⟩ := by
  induction files generalizing j done summary with
  | nil =>
    cases h
    refine ⟨[], .nil, ?_, ?_, ?_⟩
    · rwa [List.append_nil]
    · rwa [List.append_nil]
    · rw [List.append_nil, ← hdone]
      rfl
  | cons file files ih =>
    obtain ⟨⟨ns, missing⟩, j₁, h₁, h₂⟩ := Chain.run_bind_eq_ok.1 h
    rw [hdone] at h₁
    obtain ⟨p, hns, hmissing⟩ := exists_passage h₁
    have hc := hclear file List.mem_cons_self
    obtain ⟨hcompiled, made, compiled, halone⟩ := p.exists_alone hr hconf hdet hb hc rfl
    have hm : p.modules.ns = p.ns := rfl
    have hb' := p.between hr hb rfl (p.written hr hb hc hcompiled)
    have hnodup' : ((done ++ [p.modules]).map Modules.ns).Nodup := by
      rw [List.map_append, List.nodup_append]
      refine ⟨hnodup, by simp, fun n hn m hm' e => p.new ?_⟩
      rw [List.map_singleton, List.mem_singleton] at hm'
      rw [← hm, ← hm', ← e]
      exact hn
    have hdone' : summary.modules ++ [ns] = (done ++ [p.modules]).map Modules.ns := by
      rw [hdone, List.map_append, List.map_singleton, hm, hns]
    obtain ⟨ms, hall, hbetween, hnd, rfl⟩ :=
      ih (fun f hf => hclear f (List.mem_cons_of_mem _ hf)) hb' hnodup' hdone' h₂
    refine ⟨p.modules :: ms, .cons (p.composes hb hc hcompiled halone) hall, ?_, ?_, ?_⟩
    · rwa [List.append_assoc] at hbetween
    · rwa [List.append_assoc] at hnd
    · rw [List.append_assoc, List.map_cons, List.sum_cons, hmissing]
      simp [Nat.add_assoc]

end

section
variable {settings : Settings} {compiler : Compiler} {scratch : Path} {tree : Tree} {fs made start : FileSystem}

/-- A run starts from a state with a fresh output tree, to which the empty scratch directory was added. -/
theorem ready_of_outside (hwf : fs.WellFormed) (houtput : settings.output ≠ [])
    (hup : FileSystem.StepsUpFromDirectories (Output.wiped settings.output fs) settings.output)
    (htree : Tree.initialise settings.output fs = .ok tree made)
    (hscratch : FileSystem.makeDir scratch made = .ok () start)
    (houtside : ∀ loc, start.stat scratch = .ok (loc, .directory) → ∀ dir ∈ tree.dirs, isInside start dir loc = false)
    (search : SearchPath) :
    ∃ out dir name, tree.IsFreshAt made out ∧ made.WellFormed ∧ Named made scratch dir name ∧
      made.find? (name :: dir) = none ∧ start = made.put (name :: dir) .directory ∧
      Ready ⟨settings, compiler, tree, scratch, search⟩ start out (name :: dir) := by
  obtain ⟨rfl, hwf', out, hfresh⟩ := Output.initialise_eq_ok hwf houtput hup htree
  obtain ⟨dir, name, hn, hf, rfl⟩ := FileSystem.makeDir_eq_ok_iff.1 hscratch
  refine ⟨out, dir, name, hfresh, hwf', hn, hf, rfl, ?_⟩
  have hkeeps := Keeps.put hf .directory
  have hnamed : ∀ n ∈ dirNames, Named (made.put (name :: dir) .directory) (Path.join settings.output n) out n :=
    fun n hname => (hfresh.named n hname).keepsDirs hkeeps.dirs
  have hdir : ∀ n ∈ dirNames, (made.put (name :: dir) .directory).find? (n :: out) = some .directory :=
    fun n hname => hkeeps.find? _ _ (hfresh.directory n hname)
  have hstat : (made.put (name :: dir) .directory).stat scratch = .ok (name :: dir, .directory) := by
    refine ((hn.keepsDirs hkeeps.dirs).reaches ?_).stat hn.nonempty hn.short
    rw [find?_put (List.cons_ne_nil name dir), if_pos rfl]
  -- the scratch directory is not inside the output tree
  have hout : ∀ n ∈ dirNames, isBelow (n :: out) (name :: dir) = false := by
    intro n hname
    have h := houtside _ hstat (Path.join settings.output n) (List.mem_map.2 ⟨n, hname, rfl⟩)
    unfold isInside at h
    rwa [((hnamed n hname).reaches (hdir n hname)).stat (hnamed n hname).nonempty (hnamed n hname).short] at h
  have hne : ∀ n ∈ dirNames, ∀ x, isBelow (n :: out) x = true → x ≠ name :: dir := by
    rintro n hname x hx rfl
    rw [hout n hname] at hx
    cases hx
  refine ⟨hwf'.put hn.isName hn.lookedUp.short hn.directory (.inr rfl), ⟨hnamed, hdir, fun n hname x hx => ?_⟩, hstat,
    fun x hx => ?_, fun n hname x hx => ⟨hne n hname x hx, ?_⟩⟩
  · rw [find?_put (List.cons_ne_nil name dir), if_neg (hne n hname x hx)]
    exact hfresh.empty n hname x hx
  · rw [find?_put (List.cons_ne_nil name dir), if_neg]
    · exact hwf'.find?_below (by rw [hf]; simp) hx
    · rintro rfl
      rw [FileSystem.isBelow_self] at hx
      cases hx
  · rw [Bool.eq_false_iff]
    intro hx'
    rcases FileSystem.isBelow_total hx hx' with e | h | h
    · rw [← e, hfresh.directory n hname] at hf
      cases hf
    · rw [hout n hname] at h
      cases h
    · rw [hwf'.above h (by rw [hfresh.directory n hname]; simp)] at hf
      cases hf

/-- Exactly the given files, by name and text, lie below the directory that a path stands for. -/
def Holds (fs : FileSystem) (dir : Path) (files : List (OsText × Text)) : Prop :=
  ∃ loc, fs.stat dir = .ok (loc, .directory) ∧ HoldsAt fs loc files

theorem generateIn_eq_ok {j j' : Journal} {summary : Summary} (hmerge : settings.merge = false)
    (h : generateIn settings compiler tree scratch j = .ok summary j') :
    ∃ search files, SearchPath.discover j.files settings.input = .ok search ∧
      listFiles j.files settings.input [] = .ok files ∧
      processAll ⟨settings, compiler, tree, scratch, search⟩ ⟨[], none, 0⟩ files j = .ok summary j' := by
  unfold generateIn at h
  obtain ⟨search, _, h₁, r₁⟩ := Chain.run_bind_eq_ok.1 h
  obtain ⟨hsearch, rfl⟩ := look_eq_ok.1 h₁
  obtain ⟨files, _, h₂, r₂⟩ := Chain.run_bind_eq_ok.1 r₁
  obtain ⟨hfiles, rfl⟩ := look_eq_ok.1 h₂
  obtain ⟨summary', _, h₃, r₃⟩ := Chain.run_bind_eq_ok.1 r₂
  rw [hmerge] at r₃
  cases r₃
  exact ⟨search, files, hsearch, hfiles, h₃⟩

theorem runFrom_generate_eq_ok {summary : Summary} {j : Journal}
    (htree : Tree.initialise settings.output fs = .ok tree made)
    (hscratch : FileSystem.makeDir scratch made = .ok () start)
    (h : runFrom (generate settings compiler scratch) fs = (.ok summary, j)) :
    ∃ j', generateIn settings compiler tree scratch ⟨start, [], []⟩ = .ok summary j' ∧
      j = { j' with files := discard scratch j'.files } := by
  have hrun : generate settings compiler scratch ⟨fs, [], []⟩ = .ok summary j := by
    unfold runFrom at h
    split at h
    · next hg =>
      cases h
      exact hg
    · cases h
  obtain ⟨tree', _, h₁, r₁⟩ := Chain.run_bind_eq_ok.1 hrun
  obtain ⟨made', hm, rfl⟩ := onDisk_eq_ok.1 h₁
  rw [htree] at hm
  cases hm
  obtain ⟨_, _, h₂, r₂⟩ := Chain.run_bind_eq_ok.1 r₁
  obtain ⟨start', hs, rfl⟩ := onDisk_eq_ok.1 h₂
  rw [hscratch] at hs
  cases hs
  unfold inScratch at r₂
  split at r₂
  · next a j' hg =>
    cases r₂
    exact ⟨j', hg, rfl⟩
  · cases r₂

theorem runFrom_generate_of_eq_ok {s : Summary} {j : Journal}
    (htree : Tree.initialise settings.output fs = .ok tree made)
    (hscratch : FileSystem.makeDir scratch made = .ok () start)
    (h : generateIn settings compiler tree scratch ⟨start, [], []⟩ = .ok s j) :
    runFrom (generate settings compiler scratch) fs = (.ok s, { j with files := discard scratch j.files }) := by
  have hrun : generate settings compiler scratch ⟨fs, [], []⟩ =
      .ok s { j with files := discard scratch j.files } := by
    refine Chain.run_bind_eq_ok.2 ⟨tree, _, onDisk_eq_ok.2 ⟨made, htree, rfl⟩, ?_⟩
    refine Chain.run_bind_eq_ok.2 ⟨(), _, onDisk_eq_ok.2 ⟨start, hscratch, rfl⟩, ?_⟩
    unfold inScratch
    rw [h]
  unfold runFrom
  rw [hrun]

theorem eq_ok_of_runFrom {α : Type} {x : RunM α} {a : α} (h : (runFrom x fs).1 = .ok a) :
    runFrom x fs = (.ok a, (runFrom x fs).2) :=
  Prod.ext h rfl

/-- The directories of the output tree are as they were when the scratch directory is gone. -/
theorem discard_outside {search : SearchPath} {out dir : Location} {name : OsText} (hwf : made.WellFormed)
    (hfresh : tree.IsFreshAt made out) (hn : Named made scratch dir name) (hf : made.find? (name :: dir) = none)
    (hstart : start = made.put (name :: dir) .directory)
    (hr : Ready ⟨settings, compiler, tree, scratch, search⟩ start out (name :: dir))
    (hb : Frame start fs (Setup.reserved ⟨settings, compiler, tree, scratch, search⟩ start)) {n : Text}
    (hname : n ∈ dirNames) : (discard scratch fs).stat (Path.join tree.root n) = .ok (n :: out, .directory) ∧
      ∀ x, isBelow (n :: out) x = true → (discard scratch fs).find? x = fs.find? x := by
  have hstep : Keeps made start := hstart ▸ Keeps.put hf .directory
  have hrun : Keeps start fs := hb.keeps fun _ hx => hr.find?_reserved hx
  have hkeeps := hstep.trans hrun
  have hwork : fs.find? (name :: dir) = some .directory := by
    apply hrun.find? _ _
    rw [hstart, find?_put (List.cons_ne_nil name dir), if_pos rfl]
  have hframe : Frame fs (discard scratch fs) (fun x => x = name :: dir ∨ isBelow (name :: dir) x = true) :=
    FileSystem.removeTree_frame (hn.keepsDirs hkeeps.dirs) hwork
  have hfinal : Keeps made (discard scratch fs) := by
    refine hkeeps.frame hframe ?_
    rintro x (rfl | hbelow)
    · exact hf
    · exact hwf.find?_below (by rw [hf]; simp) hbelow
  have hnamed := (hfresh.named n hname).keepsDirs hfinal.dirs
  refine ⟨?_, fun x hx => ?_⟩
  · exact (hnamed.reaches (hfinal.find? _ _ (hfresh.directory n hname))).stat hnamed.nonempty hnamed.short
  · obtain ⟨hne, hbelow⟩ := hr.apart n hname x hx
    exact hframe.find? x (by rw [hbelow]; simpa using hne)

/-- What the directories of the output tree hold, they still hold when the scratch directory is gone. -/
theorem holds_of_between {search : SearchPath} {out dir : Location} {name : OsText} {ms : List Modules}
    (hwf : made.WellFormed) (hfresh : tree.IsFreshAt made out) (hn : Named made scratch dir name)
    (hf : made.find? (name :: dir) = none) (hstart : start = made.put (name :: dir) .directory)
    (hr : Ready ⟨settings, compiler, tree, scratch, search⟩ start out (name :: dir))
    (hb : Between ⟨settings, compiler, tree, scratch, search⟩ start out (name :: dir) ms fs) {n : Text}
    (hname : n ∈ dirNames) {files : List (OsText × Text)} (hholds : HoldsAt fs (n :: out) files) :
    Holds (discard scratch fs) (Path.join tree.root n) files := by
  obtain ⟨hstat, hsame⟩ := discard_outside hwf hfresh hn hf hstart hr hb.frame hname
  refine ⟨n :: out, hstat, fun x entry hx => ?_⟩
  rw [hsame x hx]
  exact hholds x entry hx

/-- A run that succeeds leaves exactly the modules that each source comes to on its own, whatever the others are. -/
theorem generate_independent {summary : Summary} {j : Journal} (hwf : fs.WellFormed) (hmerge : settings.merge = false)
    (houtput : settings.output ≠ [])
    (hup : FileSystem.StepsUpFromDirectories (Output.wiped settings.output fs) settings.output)
    (htree : Tree.initialise settings.output fs = .ok tree made)
    (hscratch : FileSystem.makeDir scratch made = .ok () start) (hapart : Apart settings tree scratch start)
    (hdotted : ∀ files, listFiles start settings.input [] = .ok files → ∀ file ∈ files, ∀ source ns,
      readSource start file = .ok source → source.ownNamespace source.identifier = .ok ns → IsDotted ns)
    (hconf : Confined compiler) (hdet : Determined compiler (reserved tree scratch start))
    (h : runFrom (generate settings compiler scratch) fs = (.ok summary, j)) :
    ∃ search files ms, SearchPath.discover start settings.input = .ok search ∧
      listFiles start settings.input [] = .ok files ∧
      List.Forall₂ (Composes ⟨settings, compiler, tree, scratch, search⟩ start) files ms ∧
      summary = ⟨ms.map Modules.ns, none, (ms.map Modules.missing).sum⟩ ∧ (ms.map Modules.ns).Nodup ∧
      Holds j.files tree.scriptDir (ms.map Modules.scriptFile) ∧
      Holds j.files tree.declarationDir (ms.map Modules.declarationFile) := by
  obtain ⟨j', hin, hfinal⟩ := runFrom_generate_eq_ok htree hscratch h
  obtain ⟨search, files, hsearch, hfiles, hall⟩ := generateIn_eq_ok hmerge hin
  obtain ⟨out, dir, name, hfresh, hwf', hn, hf, hstart, hr⟩ :=
    @ready_of_outside _ compiler _ _ _ _ _ hwf houtput hup htree hscratch hapart.outside search
  have hclear : ∀ file ∈ files, Clear ⟨settings, compiler, tree, scratch, search⟩ start file := by
    intro file hfile
    exact ⟨hapart.sources files hfiles file hfile, hapart.includes search files hsearch hfiles file hfile,
      hdotted files hfiles file hfile⟩
  obtain ⟨ms, hms, hb, hnodup, hsummary⟩ := processAll_between hr hconf hdet hclear hr.between (by simp) rfl hall
  rw [List.nil_append] at hb hnodup hsummary
  refine ⟨search, files, ms, hsearch, hfiles, hms, by rw [hsummary]; simp, hnodup, ?_, ?_⟩ <;> rw [hfinal]
  · exact holds_of_between hwf' hfresh hn hf hstart hr hb (by decide) hb.scripts
  · exact holds_of_between hwf' hfresh hn hf hstart hr hb (by decide) hb.declarations

end

/-! ## Runs on small trees -/

def small (dirs : List (List String)) (files : List (List String × String)) : FileSystem :=
  { FileSystem.bare [] with
    entries := dirs.map (fun dir => (dir.map String.toList, .directory)) ++
      files.map fun file => (file.1.map String.toList, .file (.text file.2.toList) false) }

/-- Two sources, one of which includes the other, and an old script module. -/
def pairFiles : FileSystem :=
  small [["t"], ["idl"], ["out"], ["js", "out"]]
    [(["a.thrift", "idl"], "namespace js p.a\ninclude \"b.thrift\"\nstruct A \x7b 1: b.B x \x7d\n"),
      (["b.thrift", "idl"], "namespace js p.b\nenum B \x7b\x7d\n"), (["old.js", "js", "out"], "")]

def pairSettings : Settings := ⟨"p".toList, "idl".toList, "out".toList, false, [], []⟩

def pairPlan (source : Path) : Target → List (OsText × Text)
  | .java => [("A.java".toList, "class A \x7b\x7d".toList)]
  | .javaScript =>
    if source = "idl/a.thrift".toList then [("a.js".toList, "p.a.A = function() \x7b\x7d;".toList)]
    else [("b.js".toList, "p.b.B = \x7b\x7d;".toList)]

def pairScratch : Path := "t/s".toList

def pairMade : FileSystem := (FileSystem.runOn pairFiles (Tree.initialise pairSettings.output)).2

def pairStart : FileSystem := (FileSystem.runOn pairMade (FileSystem.makeDir pairScratch)).2

theorem isName_of_mem_pairPlan (source : Path) (target : Target) :
    ∀ file ∈ pairPlan source target, Path.IsName file.1 := by
  have hjava : ∀ file ∈ pairPlan [] .java, Path.IsName file.1 := by decide
  have hother : ∀ file ∈ pairPlan [] .javaScript, Path.IsName file.1 := by decide
  cases target with
  | java => exact hjava
  | javaScript =>
    by_cases hs : source = "idl/a.thrift".toList
    · rw [hs]
      decide
    · rwa [show pairPlan source .javaScript = pairPlan [] .javaScript from if_neg hs]

theorem pair_apart : Apart pairSettings ⟨pairSettings.output⟩ pairScratch pairStart := by
  have houtside : ∀ place, pairStart.stat pairScratch = .ok place →
      ∀ dir ∈ Tree.dirs ⟨pairSettings.output⟩, isInside pairStart dir place.1 = false := by
    decide +kernel
  have hlookups : ∀ files, listFiles pairStart pairSettings.input [] = .ok files →
      (∀ file ∈ files, Avoids pairStart (reserved ⟨pairSettings.output⟩ pairScratch pairStart · = true) file) ∧
      ∀ search, SearchPath.discover pairStart pairSettings.input = .ok search →
        ∀ file ∈ files, ∀ source, readSource pairStart file = .ok source → ∀ name ∈ source.includes,
          ∀ dir ∈ search.dirs, Avoids pairStart (reserved ⟨pairSettings.output⟩ pairScratch pairStart · = true)
            (Path.join dir (SearchPath.fileOf name)) := by
    decide +kernel
  exact ⟨fun loc hloc => houtside _ hloc, fun files hfiles => (hlookups files hfiles).1,
    fun search files hsearch hfiles => (hlookups files hfiles).2 search hsearch⟩

theorem pair_dotted : ∀ files, listFiles pairStart pairSettings.input [] = .ok files → ∀ file ∈ files, ∀ source ns,
    readSource pairStart file = .ok source → source.ownNamespace source.identifier = .ok ns → IsDotted ns := by
  have hns : ∀ files, listFiles pairStart pairSettings.input [] = .ok files → ∀ file ∈ files,
      ∀ source, readSource pairStart file = .ok source → ∀ ns, source.ownNamespace source.identifier = .ok ns →
        ns = "p.a".toList ∨ ns = "p.b".toList := by
    decide +kernel
  intro files hfiles file hfile source ns hread hnamed
  rcases hns files hfiles file hfile source hread ns hnamed with rfl | rfl
  · exact ⟨[['p'], ['a']], by decide, by decide, rfl⟩
  · exact ⟨[['p'], ['b']], by decide, by decide, rfl⟩

/-- A run over two sources, one of which includes the other. -/
theorem generate_independent_pair :
    ∃ search files ms, SearchPath.discover pairStart pairSettings.input = .ok search ∧
      listFiles pairStart pairSettings.input [] = .ok files ∧
      List.Forall₂ (Composes ⟨pairSettings, writing pairPlan, ⟨pairSettings.output⟩, pairScratch, search⟩ pairStart)
        files ms ∧
      ⟨["p.a".toList, "p.b".toList], none, 2⟩ = Summary.mk (ms.map Modules.ns) none (ms.map Modules.missing).sum ∧
      (ms.map Modules.ns).Nodup ∧
      Holds (runFrom (generate pairSettings (writing pairPlan) pairScratch) pairFiles).2.files
        (Tree.scriptDir ⟨pairSettings.output⟩) (ms.map Modules.scriptFile) ∧
      Holds (runFrom (generate pairSettings (writing pairPlan) pairScratch) pairFiles).2.files
        (Tree.declarationDir ⟨pairSettings.output⟩) (ms.map Modules.declarationFile) := by
  have hwf : pairFiles.WellFormed := FileSystem.wellFormed_of_entries (by decide +kernel)
  have htree : Tree.initialise pairSettings.output pairFiles = .ok ⟨pairSettings.output⟩ pairMade :=
    FileSystem.eq_ok_of_runOn (by decide +kernel)
  have hscratch : FileSystem.makeDir pairScratch pairMade = .ok () pairStart :=
    FileSystem.eq_ok_of_runOn (by decide +kernel)
  have hrun : (runFrom (generate pairSettings (writing pairPlan) pairScratch) pairFiles).1 =
      .ok ⟨["p.a".toList, "p.b".toList], none, 2⟩ := by
    decide +kernel
  exact generate_independent hwf rfl (by decide) (FileSystem.stepsUp_of_notMem (by decide)) htree hscratch pair_apart
    pair_dotted (confined_writing isName_of_mem_pairPlan) (determined_writing isName_of_mem_pairPlan _)
    (eq_ok_of_runFrom hrun)

/-- No source, and an old script module in an output directory that the path steps up to from a missing one. -/
def staleFiles : FileSystem := small [["t"], ["idl"], ["out"], ["js", "out"]] [(["old.js", "js", "out"], "")]

def staleSettings : Settings := { pairSettings with output := "missing/../out".toList }

/-- The source `b` includes what a link leads to; a file is there when `a` is compiled. -/
def linkFiles : FileSystem :=
  (small [["t"], ["idl"], ["sub", "idl"]]
    [(["a.thrift", "idl"], "namespace js a\n"), (["c.thrift", "sub", "idl"], "namespace js c\n"),
      (["b.thrift", "idl"], "namespace js b\ninclude \"c.thrift\"\nstruct B \x7b 1: c.C x \x7d\n")]).put
    ["c.thrift".toList, "idl".toList] (.link "../out/java/c.thrift".toList)

def linkPlan (source : Path) (target : Target) : List (OsText × Text) :=
  if target = .java ∧ source = "idl/a.thrift".toList then [("c.thrift".toList, "namespace js d\n".toList)] else []

def linkStart : FileSystem :=
  (FileSystem.runOn (FileSystem.runOn linkFiles (Tree.initialise pairSettings.output)).2
    (FileSystem.makeDir pairScratch)).2

def linkSetup : Setup :=
  ⟨pairSettings, writing linkPlan, ⟨pairSettings.output⟩, pairScratch, ⟨["idl".toList, "idl/sub".toList]⟩⟩

/-- An output directory is not wiped where its path steps up from a missing directory, and an included file that a link
leads to is read as the run has left it. -/
theorem generate_depends_on_places :
    ((runFrom (generate staleSettings (writing fun _ _ => []) pairScratch) staleFiles).1 = .ok ⟨[], none, 0⟩ ∧
      ¬Holds (runFrom (generate staleSettings (writing fun _ _ => []) pairScratch) staleFiles).2.files
        (Tree.scriptDir ⟨staleSettings.output⟩) []) ∧
    ((runFrom (generate pairSettings (writing linkPlan) pairScratch) linkFiles).1 =
        .ok ⟨["a".toList, "b".toList, "c".toList], none, 2⟩ ∧
      SearchPath.discover linkStart pairSettings.input = .ok linkSetup.search ∧
      ¬∃ m, Composes linkSetup linkStart "idl/b.thrift".toList m ∧
        (runFrom (generate pairSettings (writing linkPlan) pairScratch) linkFiles).2.files.readText
          (linkSetup.tree.declarationModule m.ns) = .ok m.declarations.text) := by
  refine ⟨⟨by decide +kernel, ?_⟩, by decide +kernel, by decide +kernel, ?_⟩
  · rintro ⟨loc, hloc, hholds⟩
    have hdir : ∀ place, (runFrom (generate staleSettings (writing fun _ _ => []) pairScratch) staleFiles).2.files.stat
        (Tree.scriptDir ⟨staleSettings.output⟩) = .ok place → place.1 = ["js".toList, "out".toList] := by
      decide +kernel
    have hstale : (runFrom (generate staleSettings (writing fun _ _ => []) pairScratch) staleFiles).2.files.find?
        ["old.js".toList, "js".toList, "out".toList] = some (.file (.text []) false) := by
      decide +kernel
    obtain rfl : loc = _ := hdir _ hloc
    obtain ⟨file, hfile, -⟩ := (hholds _ _ (isBelow_cons "old.js".toList _)).1 hstale
    cases hfile
  · rintro ⟨m, hm, hread⟩
    have halone : ∀ m, (runFrom (compose linkSetup "idl/b.thrift".toList) linkStart).1 = .ok m →
        (runFrom (generate pairSettings (writing linkPlan) pairScratch) linkFiles).2.files.readText
          (linkSetup.tree.declarationModule m.ns) ≠ .ok m.declarations.text := by
      decide +kernel
    exact halone m hm hread

end ThriftModules.Run
