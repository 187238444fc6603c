import ThriftModules.Proofs.Run.Keeping

/-!
# Modules in pairs

* `entryOf` : what a directory holds under a name;
* `PairState` : the modules of a namespace after a run: none, both, or a script module alone;
* `generate_pairs` : there is no other state, however the run ends, and a script module stands alone only if the run has
  failed because the declaration module could not be written.
-/

namespace ThriftModules.Run

set_option autoImplicit false

open Idl (SearchPath)
open Output (Tree HoldsAt listFiles dirNames)
open FileSystem (Frame Keeps Named Reaches isBelow isBelow_cons)
open Chain (Ends)

def entryOf (fs : FileSystem) (dir : Path) (name : OsText) : Option Entry :=
  match fs.stat dir with
  | .ok (loc, .directory) => fs.find? (name :: loc)
  | _ => none

def scriptOf (fs : FileSystem) (tree : Tree) (ns : Namespace) : Option Entry :=
  entryOf fs tree.scriptDir (ns ++ Output.scriptSuffix)

def declarationOf (fs : FileSystem) (tree : Tree) (ns : Namespace) : Option Entry :=
  entryOf fs tree.declarationDir (ns ++ Output.declarationSuffix)

/-- The modules of a namespace after a run: none, or both as a visited source comes to them, or the script module alone
where the run failed because the declaration module could not be written. -/
inductive PairState (fs : FileSystem) (tree : Tree) (vs : List Visit) (r : Except RunError Summary)
    (ns : Namespace) : Prop where
  | neither (script : scriptOf fs tree ns = none) (declarations : declarationOf fs tree ns = none)
  | both {v : Visit} {m : Modules} (visited : v ∈ vs) (comes : v.comesTo m) (named : m.ns = ns)
    (script : scriptOf fs tree ns = some (.file (.text m.script.text) false))
    (declarations : declarationOf fs tree ns = some (.file (.text m.declarations.text) false))
  | scriptOnly {v : Visit} {m : Modules} {cause : OsError} (visited : v ∈ vs) (comes : v.comesTo m) (named : m.ns = ns)
    (script : scriptOf fs tree ns = some (.file (.text m.script.text) false))
    (declarations : declarationOf fs tree ns = none)
    (failed : r = .error (.output (.build (tree.declarationModule ns) cause)))

section
variable {fs fs' start : FileSystem} {tree : Tree} {setup : Setup} {out work : Location} {vs : List Visit}
  {r : Except RunError Summary} {ns : Namespace}

theorem entryOf_of_stat {dir : Path} {loc : Location} (h : fs.stat dir = .ok (loc, .directory)) (name : OsText) :
    entryOf fs dir name = fs.find? (name :: loc) := by
  unfold entryOf
  rw [h]

/-- There are no modules where the directories of the tree are empty. -/
theorem PairState.of_empty (h : ∀ dir ∈ dirNames, ∀ loc, fs.stat (Path.join tree.root dir) = .ok (loc, .directory) →
    ∀ x, isBelow loc x = true → fs.find? x = none) : PairState fs tree vs r ns := by
  have hnone : ∀ dir ∈ dirNames, ∀ name, entryOf fs (Path.join tree.root dir) name = none := by
    intro dir hdir name
    unfold entryOf
    split
    · next loc hs => exact h dir hdir loc hs _ (isBelow_cons name loc)
    · rfl
  exact .neither (hnone _ (by decide) _) (hnone _ (by decide) _)

/-- Exactly the given modules stand in the output tree. -/
structure Shows (fs : FileSystem) (tree : Tree) (scripts declarations : List Modules) : Prop where
  script : ∀ m ∈ scripts, scriptOf fs tree m.ns = some (.file (.text m.script.text) false)
  declaration : ∀ m ∈ declarations, declarationOf fs tree m.ns = some (.file (.text m.declarations.text) false)
  noScript : ∀ ns, ns ∉ scripts.map Modules.ns → scriptOf fs tree ns = none
  noDeclaration : ∀ ns, ns ∉ declarations.map Modules.ns → declarationOf fs tree ns = none

/-- The modules of a run that are there when the scratch directory is gone. -/
theorem Kept.shows {scripts declarations : List Modules} (h : Kept setup start out scripts declarations fs)
    (hdirs : ∀ n ∈ dirNames, fs'.stat (Path.join setup.tree.root n) = .ok (n :: out, .directory) ∧
      ∀ x, isBelow (n :: out) x = true → fs'.find? x = fs.find? x) : Shows fs' setup.tree scripts declarations := by
  obtain ⟨hjs, hjs'⟩ := hdirs "js".toList (by decide)
  obtain ⟨hts, hts'⟩ := hdirs "ts".toList (by decide)
  have hscripts := h.scripts.congr hjs'
  have hdeclarations := h.declarations.congr hts'
  have hother : ∀ {ms : List Modules} {ns : Namespace} {suffix : Text}, ns ∉ ms.map Modules.ns →
      ∀ m ∈ ms, m.ns ++ suffix ≠ ns ++ suffix := fun hn m hm e =>
    hn (List.mem_map.2 ⟨m, hm, List.append_cancel_right e⟩)
  refine ⟨fun m hm => ?_, fun m hm => ?_, fun ns hn => ?_, fun ns hn => ?_⟩
  · exact (entryOf_of_stat hjs _).trans (hscripts.find?_of_mem (List.mem_map_of_mem hm))
  · exact (entryOf_of_stat hts _).trans (hdeclarations.find?_of_mem (List.mem_map_of_mem hm))
  · refine (entryOf_of_stat hjs _).trans (hscripts.find?_eq_none fun file hf => ?_)
    obtain ⟨m, hm, rfl⟩ := List.mem_map.1 hf
    exact hother hn m hm
  · refine (entryOf_of_stat hts _).trans (hdeclarations.find?_eq_none fun file hf => ?_)
    obtain ⟨m, hm, rfl⟩ := List.mem_map.1 hf
    exact hother hn m hm

/-- What a run leaves are modules in pairs, and the script module of a visit that failed. -/
theorem PairState.of_leaves {failed : RunError → Prop} (h : Leaves setup start out vs failed fs)
    (hdirs : ∀ n ∈ dirNames, fs'.stat (Path.join setup.tree.root n) = .ok (n :: out, .directory) ∧
      ∀ x, isBelow (n :: out) x = true → fs'.find? x = fs.find? x)
    (hfailed : ∀ e, failed e → r = .error e) : PairState fs' setup.tree vs r ns := by
  obtain ⟨done, hcame, hkept | ⟨m, cause, ⟨v, hv, hm⟩, hnew, hkept, hcause⟩⟩ := h
  · have hs := hkept.shows hdirs
    by_cases hns : ns ∈ done.map Modules.ns
    · obtain ⟨m, hm, rfl⟩ := List.mem_map.1 hns
      obtain ⟨v, hv, hvm⟩ := hcame m hm
      exact .both hv hvm rfl (hs.script m hm) (hs.declaration m hm)
    · exact .neither (hs.noScript ns hns) (hs.noDeclaration ns hns)
  · have hs := hkept.shows hdirs
    by_cases hns : ns ∈ done.map Modules.ns
    · obtain ⟨m, hm, rfl⟩ := List.mem_map.1 hns
      obtain ⟨v, hv, hvm⟩ := hcame m hm
      exact .both hv hvm rfl (hs.script m (List.mem_append_left _ hm)) (hs.declaration m hm)
    · by_cases hlast : m.ns = ns
      · subst hlast
        exact .scriptOnly hv hm rfl (hs.script m (by simp)) (hs.noDeclaration m.ns hnew) (hfailed _ hcause)
      · refine .neither (hs.noScript ns ?_) (hs.noDeclaration ns hns)
        rw [List.map_append, List.mem_append, not_or]
        exact ⟨hns, by simpa using Ne.symm hlast⟩

end

section
variable {settings : Settings} {compiler : Compiler} {scratch : Path} {fs : FileSystem}

theorem isName_of_mem_dirNames {name : OsText} (h : name ∈ dirNames) : Path.IsName name := by
  revert name
  decide

theorem isName_of_names {v : Visit} {ns : Namespace} (h : v.names ns) (hdots : ¬v.names ['.'] ∧ ¬v.names ['.', '.']) :
    Path.IsName ns := by
  obtain ⟨source, hread, hns⟩ := h
  obtain ⟨hne, hchars⟩ := isNamespaceChar_of_namespace? (Idl.namespace?_of_ownNamespace hns)
  refine isName_of_isNamespaceChar hne hchars ?_ ?_
  · rintro rfl
    exact hdots.1 ⟨source, hread, hns⟩
  · rintro rfl
    exact hdots.2 ⟨source, hread, hns⟩

/-- What a run leaves in its output tree when it has its scratch directory. -/
theorem generateIn_leaves {tree : Tree} {start : FileSystem} {out work : Location} {vs : List Visit}
    (hmerge : settings.merge = false)
    (hr : ∀ search, Ready ⟨settings, compiler, tree, scratch, search⟩ start out work) (hc : Contained compiler)
    (hvs : ∀ search files, SearchPath.discover start settings.input = .ok search →
      listFiles start settings.input [] = .ok files →
        visits ⟨settings, compiler, tree, scratch, search⟩ [] files ⟨start, [], []⟩ = vs)
    (hnames : ∀ v ∈ vs, ∀ ns, v.names ns → Path.IsName ns) :
    Ends (fun _ j => ∃ search, Leaves ⟨settings, compiler, tree, scratch, search⟩ start out vs (fun _ => False) j.files)
      (fun e j => ∃ search, Leaves ⟨settings, compiler, tree, scratch, search⟩ start out vs (e = ·) j.files)
      (generateIn settings compiler tree scratch ⟨start, [], []⟩) := by
  have hnothing : ∀ e, ∃ search, Leaves ⟨settings, compiler, tree, scratch, search⟩ start out vs (e = ·) start :=
    fun e => ⟨⟨[]⟩, [], by simp, .inl (hr ⟨[]⟩).kept⟩
  unfold generateIn
  refine Ends.bind (P := fun found j => SearchPath.discover start settings.input = .ok found ∧ j = ⟨start, [], []⟩)
    (ends_look (fun _ hs => ⟨hs, rfl⟩) fun _ _ => hnothing _) ?_
  rintro found _ - ⟨hsearch, rfl⟩
  refine Ends.bind (P := fun files j => listFiles start settings.input [] = .ok files ∧ j = ⟨start, [], []⟩)
    (ends_look (fun _ hf => ⟨hf, rfl⟩) fun _ _ => hnothing _) ?_
  rintro files _ - ⟨hfiles, rfl⟩
  obtain rfl := hvs found files hsearch hfiles
  have hall := processAll_leaves (j := ⟨start, [], []⟩) (hr found) hc hnames
  refine (hall.mono (fun _ _ hl => hl) fun _ _ hl => ⟨found, hl⟩).bind fun s j _ hl => ?_
  rw [hmerge]
  exact ⟨found, hl⟩

/-- How the modules of a namespace stand when the scratch directory is gone. -/
theorem inScratch_pairs {tree : Tree} {made start : FileSystem} {ns : Namespace} (hwf : fs.WellFormed)
    (hmerge : settings.merge = false) (houtput : settings.output ≠ [])
    (hup : FileSystem.StepsUpFromDirectories (Output.wiped settings.output fs) settings.output)
    (htree : Tree.initialise settings.output fs = .ok tree made)
    (hscratch : FileSystem.makeDir scratch made = .ok () start) (hc : Contained compiler)
    (houtside : ∀ loc, start.stat scratch = .ok (loc, .directory) → ∀ dir ∈ tree.dirs, isInside start dir loc = false)
    (hnames : ∀ v ∈ visitsOf settings compiler scratch fs, ∀ n, v.names n → Path.IsName n) :
    Ends (fun s j => PairState j.files tree (visitsOf settings compiler scratch fs) (.ok s) ns)
      (fun e j => PairState j.files tree (visitsOf settings compiler scratch fs) (.error e) ns)
      (inScratch scratch (generateIn settings compiler tree scratch) ⟨start, [], []⟩) := by
  obtain ⟨out, dir, name, hfresh, hwf', hn, hf, hstart, hr⟩ :
      ∃ out dir name, _ ∧ _ ∧ _ ∧ _ ∧ _ ∧ Ready ⟨settings, compiler, tree, scratch, ⟨[]⟩⟩ start out (name :: dir) :=
    ready_of_outside hwf houtput hup htree hscratch houtside ⟨[]⟩
  have hr : ∀ search, Ready ⟨settings, compiler, tree, scratch, search⟩ start out (name :: dir) :=
    fun _ => ⟨hr.wellFormed, hr.tree, hr.scratch, hr.empty, hr.apart⟩
  have hrun := generateIn_leaves hmerge hr hc
    (fun search files hsearch hfiles => (visitsOf_eq htree hscratch hsearch hfiles).symm) hnames
  refine ends_inScratch (hrun.mono ?_ ?_)
  · rintro s j ⟨search, hl⟩
    exact .of_leaves hl (fun n hname => discard_outside hwf' hfresh hn hf hstart (hr search) hl.frame hname)
      fun _ h => h.elim
  · rintro e j ⟨search, hl⟩
    exact .of_leaves hl (fun n hname => discard_outside hwf' hfresh hn hf hstart (hr search) hl.frame hname)
      fun _ h => congrArg Except.error h

/-- However a run ends, the modules of each namespace are there as a pair or not at all, but for the script module of a
visit that has failed because its declaration module could not be written. -/
theorem generate_pairs {r : Except RunError Summary} {j : Journal} (hwf : fs.WellFormed)
    (hmerge : settings.merge = false) (houtput : settings.output ≠ [])
    (hup : FileSystem.StepsUpFromDirectories (Output.wiped settings.output fs) settings.output)
    (hc : Contained compiler)
    (houtside : ∀ tree made start loc, Tree.initialise settings.output fs = .ok tree made →
      FileSystem.makeDir scratch made = .ok () start → start.stat scratch = .ok (loc, .directory) →
        ∀ dir ∈ tree.dirs, isInside start dir loc = false)
    (hdots : ∀ v ∈ visitsOf settings compiler scratch fs, ¬v.names ['.'] ∧ ¬v.names ['.', '.'])
    (h : runFrom (generate settings compiler scratch) fs = (r, j)) (ns : Namespace) :
    PairState j.files ⟨settings.output⟩ (visitsOf settings compiler scratch fs) r ns := by
  have hrun : Ends
      (fun s j => PairState j.files ⟨settings.output⟩ (visitsOf settings compiler scratch fs) (.ok s) ns)
      (fun e j => PairState j.files ⟨settings.output⟩ (visitsOf settings compiler scratch fs) (.error e) ns)
      (generate settings compiler scratch ⟨fs, [], []⟩) := by
    unfold generate
    refine Ends.bind (P := fun tree j => Tree.initialise settings.output fs = .ok tree j.files ∧ j = ⟨j.files, [], []⟩)
      (ends_onDisk (Chain.ends_iff.2 ⟨fun tree made htree => ⟨htree, rfl⟩, fun e made htree =>
        .of_empty fun dir hdir loc => ?_⟩)) ?_
    · exact Output.initialise_eq_error hwf houtput hup htree dir loc (isName_of_mem_dirNames hdir)
    rintro tree ⟨made, _, _⟩ - ⟨htree, he⟩
    cases he
    obtain ⟨rfl, -, out, hfresh⟩ := Output.initialise_eq_ok hwf houtput hup htree
    refine Ends.bind (P := fun _ j => FileSystem.makeDir scratch made = .ok () j.files ∧ j = ⟨j.files, [], []⟩)
      (ends_onDisk (Chain.ends_iff.2 ⟨fun _ start hs => ⟨hs, rfl⟩, fun e fs' hs =>
        .of_empty fun dir hdir loc hloc => ?_⟩)) ?_
    · have hn := hfresh.named dir hdir
      rw [FileSystem.makeDir_eq_error hs] at hloc ⊢
      rw [(hn.reaches (hfresh.directory dir hdir)).stat hn.nonempty hn.short] at hloc
      cases hloc
      exact hfresh.empty dir hdir
    rintro _ ⟨start, _, _⟩ - ⟨hscratch, he⟩
    cases he
    exact inScratch_pairs hwf hmerge houtput hup htree hscratch hc
      (fun loc => houtside _ made start loc htree hscratch) fun v hv n hn => isName_of_names hn (hdots v hv)
  unfold runFrom at h
  split at h
  · next hg =>
    cases h
    exact hrun.ok hg
  · next hg =>
    cases h
    exact hrun.error hg

end

/-! ## Runs on small trees -/

def makeEntries (dir : Path) : List (Text × Entry) → FileSystem.DiskM Text Unit
  | [] => pure ()
  | (name, entry) :: rest => do
    FileSystem.orFail OsError.message (FileSystem.makeEntry (Path.join dir name) entry)
    makeEntries dir rest

/-- The compiler that makes given entries in its output directory, and that fails for the scripts of one source. -/
def making (plan : Path → Target → List (Text × Entry)) (failing : Path) : Compiler := fun r => do
  makeEntries r.outputDir (plan r.source r.target)
  return ⟨some (if r.source = failing ∧ r.target = .javaScript then 1 else 0), []⟩

theorem makeEntry_ends (fs : FileSystem) (p : Path) (entry : Entry) :
    Ends (fun _ fs' => ∃ d n, Named fs p d n ∧ fs.find? (n :: d) = none ∧ fs' = fs.put (n :: d) entry)
      (fun _ fs' => fs' = fs) (FileSystem.makeEntry p entry fs) := by
  unfold FileSystem.makeEntry
  refine Ends.bind (P := fun slot fs' => fs.slot p = .ok slot ∧ fs' = fs) ?_ ?_
  · exact Chain.ends_iff.2 ⟨fun _ _ h => FileSystem.inspect_eq_ok.1 h, fun _ _ h => (FileSystem.inspect_eq_error.1 h).2⟩
  rintro slot fs - ⟨hs, rfl⟩
  cases slot with
  | name d n slash =>
    refine Ends.bind (P := fun g fs' => g = fs ∧ fs' = fs) ⟨rfl, rfl⟩ ?_
    rintro _ _ - ⟨rfl, rfl⟩
    split
    · rfl
    · next hf =>
      split
      · rfl
      · exact ⟨d, n, (FileSystem.slot_eq_name_iff.1 hs).1, by simpa using hf, rfl⟩
  | _ => rfl

theorem makeEntries_ends {fs : FileSystem} {dir : Path} {loc : Location} {entries : List (Text × Entry)}
    (hwf : fs.WellFormed) (hd : Reaches fs dir loc) (hn : ∀ e ∈ entries, Path.IsName e.1) :
    Ends (fun _ fs' => Frame fs fs' (isBelow loc · = true) ∧ fs'.WellFormed)
      (fun _ fs' => Frame fs fs' (isBelow loc · = true) ∧ fs'.WellFormed) (makeEntries dir entries fs) := by
  induction entries generalizing fs with
  | nil => exact ⟨Frame.refl _ _, hwf⟩
  | cons e rest ih =>
    obtain ⟨name, entry⟩ := e
    have hmade := makeEntry_ends fs (Path.join dir name) entry
    refine ((Output.ends_orFail hmade).mono (fun _ _ h => h) fun _ fs' h => ?_).bind ?_
    · rw [h]
      exact ⟨Frame.refl _ _, hwf⟩
    rintro _ _ - ⟨d, n, hnamed, hfree, rfl⟩
    obtain ⟨rfl, rfl⟩ := hnamed.of_join hd (hn _ List.mem_cons_self)
    have hwf' : (fs.put (n :: d) entry).WellFormed :=
      hwf.put hnamed.isName hnamed.lookedUp.short hd.directory (.inl (by rw [hfree]; simp))
    have hput : Frame fs (fs.put (n :: d) entry) (isBelow d · = true) :=
      (Frame.put fs (List.cons_ne_nil n d) entry).mono fun x hx => hx ▸ isBelow_cons n d
    have hrest := ih hwf' (hd.keepsDirs (Keeps.put hfree entry).dirs) fun e he => hn e (List.mem_cons_of_mem _ he)
    exact hrest.mono (fun _ _ h => ⟨hput.trans h.1, h.2⟩) fun _ _ h => ⟨hput.trans h.1, h.2⟩

theorem contained_making {plan : Path → Target → List (Text × Entry)} {failing : Path}
    (hn : ∀ source target, ∀ e ∈ plan source target, Path.IsName e.1) : Contained (making plan failing) := by
  constructor
  intro r fs loc hwf hs
  exact (makeEntries_ends hwf (FileSystem.stat_eq_directory_iff.1 hs).2.2 (hn r.source r.target)).bind
    fun _ _ _ h => h

/-- Two sources, where the name of the second declaration module is longer than a name can be. -/
def shortFiles : FileSystem :=
  { small [["t"], ["idl"]] [(["a", "idl"], "namespace js a\n"), (["b", "idl"], "namespace js library\n")] with
    nameLimit := 10 }

def scriptPlan : Target → List (Text × Entry)
  | .java => []
  | .javaScript => [("g.js".toList, .file (.text "var g;".toList) false)]

def shortCompiler : Compiler := making (fun _ => scriptPlan) []

def shortRun : Except RunError Summary × Journal := runFrom (generate pairSettings shortCompiler pairScratch) shortFiles

def shortStart : FileSystem :=
  (FileSystem.runOn (FileSystem.runOn shortFiles (Tree.initialise pairSettings.output)).2
    (FileSystem.makeDir pairScratch)).2

/-- The script module of the second source stands alone. -/
theorem generate_pairs_short :
    ∃ v ∈ visitsOf pairSettings shortCompiler pairScratch shortFiles, ∃ m, v.comesTo m ∧ m.ns = "library".toList ∧
      scriptOf shortRun.2.files ⟨pairSettings.output⟩ "library".toList = some (.file (.text m.script.text) false) := by
  have hwf : shortFiles.WellFormed := FileSystem.wellFormed_of_entries (by decide +kernel)
  have hplan : ∀ (_ : Path) target, ∀ e ∈ scriptPlan target, Path.IsName e.1 := by
    intro _ target
    cases target <;> decide
  have houtside : ∀ place, shortStart.stat pairScratch = .ok place →
      ∀ dir ∈ Tree.dirs ⟨pairSettings.output⟩, isInside shortStart dir place.1 = false := by
    decide +kernel
  have hnames : ∀ v ∈ visitsOf pairSettings shortCompiler pairScratch shortFiles, ∀ source,
      Idl.readSource v.journal.files v.file = .ok source → ∀ ns, source.ownNamespace source.identifier = .ok ns →
        ns ≠ ['.'] ∧ ns ≠ ['.', '.'] := by
    decide +kernel
  have hscript : scriptOf shortRun.2.files ⟨pairSettings.output⟩ "library".toList ≠ none := by decide +kernel
  have hdeclaration : declarationOf shortRun.2.files ⟨pairSettings.output⟩ "library".toList = none := by decide +kernel
  have hrun : runFrom (generate pairSettings shortCompiler pairScratch) shortFiles = (shortRun.1, shortRun.2) :=
    Prod.mk.eta.symm
  have hstate : PairState shortRun.2.files ⟨pairSettings.output⟩
      (visitsOf pairSettings shortCompiler pairScratch shortFiles) shortRun.1 "library".toList := by
    refine generate_pairs hwf rfl (by decide) (FileSystem.stepsUp_of_notMem (by decide)) (contained_making hplan)
      ?_ (fun v hv => ⟨?_, ?_⟩) hrun _
    · intro tree made start loc htree hscratch hloc
      obtain ⟨rfl, -⟩ := Output.makeAll_of_initialise hwf htree
      obtain rfl : start = shortStart := by
        unfold shortStart
        rw [FileSystem.runOn_of_eq_ok htree, FileSystem.runOn_of_eq_ok hscratch]
      exact houtside _ hloc
    · rintro ⟨source, hread, hns⟩
      exact (hnames v hv source hread _ hns).1 rfl
    · rintro ⟨source, hread, hns⟩
      exact (hnames v hv source hread _ hns).2 rfl
  cases hstate with
  | neither script _ => exact absurd script hscript
  | both _ _ _ _ declarations =>
    rw [hdeclaration] at declarations
    cases declarations
  | scriptOnly visited comes named script => exact ⟨_, visited, _, comes, named, script⟩

def LeavesAlone (settings : Settings) (compiler : Compiler) (scratch : Path) (fs : FileSystem) (ns : Namespace) :
    Prop :=
  scriptOf (runFrom (generate settings compiler scratch) fs).2.files ⟨settings.output⟩ ns ≠ none ∧
    declarationOf (runFrom (generate settings compiler scratch) fs).2.files ⟨settings.output⟩ ns = none

instance (settings : Settings) (compiler : Compiler) (scratch : Path) (fs : FileSystem) (ns : Namespace) :
    Decidable (LeavesAlone settings compiler scratch fs ns) :=
  inferInstanceAs (Decidable (_ ∧ _))

def declaring (first second : String) : FileSystem :=
  small [["t"], ["idl"]] [(["a", "idl"], "namespace js " ++ first), (["b", "idl"], "namespace js " ++ second)]

/-- A script made for one source under a given path below its output directory. -/
def strayPlan (source path : String) (s : Path) (target : Target) : List (Text × Entry) :=
  if s = source.toList ∧ target = .javaScript then [(path.toList, .file (.text []) false)] else []

/-- Links made for the first source, and a script for the second one, which fails. -/
def linkingPlan (place : Target) (link destination : String) (s : Path) (target : Target) : List (Text × Entry) :=
  if s = "idl/b".toList then strayPlan "idl/b" "x.js" s target
  else if target = place then [(link.toList, .link destination.toList)] else []

/-- A script module stands alone where the name of the declaration module is too long, where the output directory is not
wiped, where a namespace is one dot or two, and where the scratch directory lies in the output tree. -/
theorem script_module_alone :
    (shortRun.1 = .error (.output (.build "out/ts/library.d.ts".toList .nameTooLong)) ∧
      LeavesAlone pairSettings shortCompiler pairScratch shortFiles "library".toList) ∧
    LeavesAlone staleSettings (making (fun _ _ => []) []) pairScratch staleFiles "old".toList ∧
    LeavesAlone { pairSettings with output := [] } (making (fun _ _ => []) []) pairScratch
      (small [["t"], ["idl"], ["js"]] [(["old.js", "js"], "")]) "old".toList ∧
    LeavesAlone pairSettings (making (strayPlan "idl/a" "js/x.js") "idl/a".toList) "out/s".toList (declaring ".." "b")
      "x".toList ∧
    LeavesAlone pairSettings (making (linkingPlan .javaScript "b" "../../out/js") "idl/b".toList) pairScratch
      (declaring "." "b") "x".toList ∧
    LeavesAlone pairSettings (making (linkingPlan .java "s/b" "../../js") "idl/b".toList) "out/java/s".toList
      (declaring "a" "b") "x".toList := by
  refine ⟨⟨?_, ?_⟩, ?_, ?_, ?_, ?_, ?_⟩ <;> decide +kernel

end ThriftModules.Run
