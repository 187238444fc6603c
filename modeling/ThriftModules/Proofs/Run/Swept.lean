import ThriftModules.Proofs.Output.Listed
import ThriftModules.Proofs.Run.Keeping
import ThriftModules.Proofs.Text.Sites

/-!
# The scratch directory between two sources

* `Begins`, `exists_begins` : where a run starts; of the output tree, only the server's classes need to be apart from
  its scratch directory;
* `Swept` : the state between two sources: only the output tree and the scratch directory were written to, and no script
  is left in the scratch directory;
* `Passage.swept`, `processAll_swept` : a processed source leads from one such state to the next, and so does a run.
-/

namespace ThriftModules.Run

set_option autoImplicit false

open Output (Tree IsListed Erased Puts dirNames removeFiles)
open FileSystem (Frame Keeps Named Reaches isBelow isBelow_cons find?_put)
open Chain (Ends)

/-! ## The start -/

/-- The output tree is fresh in `made`, and `start` has the scratch directory at `work` besides, which does not lie
inside the server's classes. -/
structure Begins (tree : Tree) (scratch : Path) (made start : FileSystem) (out work : Location) : Prop where
  wellFormed : made.WellFormed
  fresh : tree.IsFreshAt made out
  named : ∃ dir name, work = name :: dir ∧ Named made scratch dir name
  free : made.find? work = none
  start_eq : start = made.put work .directory
  outside : isBelow ("java".toList :: out) work = false

/-- What a run may write to: the server's classes, the scratch directory, and the places of modules. -/
def MayWrite (out work x : Location) : Prop :=
  isBelow ("java".toList :: out) x = true ∨ isBelow work x = true ∨
    x ≠ work ∧ ∃ file, x = file :: "js".toList :: out ∨ x = file :: "ts".toList :: out

section
variable {tree : Tree} {scratch : Path} {made start fs fs' : FileSystem} {out work x : Location}

theorem Begins.work_ne_nil (b : Begins tree scratch made start out work) : work ≠ [] := by
  obtain ⟨dir, name, rfl, -⟩ := b.named
  exact List.cons_ne_nil _ _

theorem Begins.find?_scratch (b : Begins tree scratch made start out work)
    (hx : x = work ∨ isBelow work x = true) : made.find? x = none := by
  rcases hx with rfl | hx
  · exact b.free
  · exact b.wellFormed.find?_below (by rw [b.free]; simp) hx

/-- The scratch directory is none of the output tree, and none of these lies below it. -/
theorem Begins.not_below_work (b : Begins tree scratch made start out work) {name : OsText} (hname : name ∈ dirNames) :
    name :: out ≠ work ∧ isBelow work (name :: out) = false := by
  have hout : ¬(name :: out = work ∨ isBelow work (name :: out) = true) := by
    intro h
    have hd := b.fresh.directory name hname
    rw [b.find?_scratch h] at hd
    cases hd
  exact ⟨fun e => hout (.inl e), Bool.eq_false_iff.2 fun hb => hout (.inr hb)⟩

theorem Begins.keeps_start (b : Begins tree scratch made start out work) : Keeps made start :=
  b.start_eq ▸ Keeps.put b.free .directory

theorem Begins.find?_work (b : Begins tree scratch made start out work) : start.find? work = some .directory := by
  rw [b.start_eq, find?_put b.work_ne_nil, if_pos rfl]

/-- No place in a directory of modules lies in the scratch directory. -/
theorem Begins.not_below_module (b : Begins tree scratch made start out work) {name : OsText} (hname : name ∈ dirNames)
    (file : Text) : isBelow work (file :: name :: out) = false := by
  rw [Bool.eq_false_iff]
  intro hb
  obtain ⟨hne, hbelow⟩ := b.not_below_work hname
  rcases FileSystem.isBelow_total hb (isBelow_cons file _) with e | h | h
  · exact hne e.symm
  · rw [hbelow] at h
    cases h
  · have := FileSystem.length_lt_of_isBelow h
    have := FileSystem.length_lt_of_isBelow hb
    simp only [List.length_cons] at *
    omega

theorem Begins.find?_mayWrite (b : Begins tree scratch made start out work) (hx : MayWrite out work x) :
    start.find? x = none := by
  have hmade : ∀ y, y ≠ work → start.find? y = made.find? y := by
    intro y hy
    rw [b.start_eq, find?_put b.work_ne_nil, if_neg hy]
  rcases hx with hx | hx | ⟨hne, file, rfl | rfl⟩
  · rw [hmade, b.fresh.empty _ (by decide) x hx]
    rintro rfl
    rw [b.outside] at hx
    cases hx
  · rw [hmade, b.find?_scratch (.inr hx)]
    rintro rfl
    simp at hx
  · rw [hmade _ hne, b.fresh.empty _ (by decide) _ (isBelow_cons _ _)]
  · rw [hmade _ hne, b.fresh.empty _ (by decide) _ (isBelow_cons _ _)]

theorem Begins.not_below_java (b : Begins tree scratch made start out work) (hx : isBelow work x = true) :
    isBelow ("java".toList :: out) x = false := by
  rw [Bool.eq_false_iff]
  intro hjava
  obtain ⟨hne, hbelow⟩ := b.not_below_work (by decide : "java".toList ∈ dirNames)
  rcases FileSystem.isBelow_total hx hjava with e | h | h
  · exact hne e.symm
  · rw [hbelow] at h
    cases h
  · rw [b.outside] at h
    cases h

theorem Begins.keeps (b : Begins tree scratch made start out work) (h : Frame start fs (MayWrite out work)) :
    Keeps start fs :=
  h.keeps fun _ => b.find?_mayWrite

theorem Begins.keeps_made (b : Begins tree scratch made start out work) (h : Frame start fs (MayWrite out work)) :
    Keeps made fs :=
  b.keeps_start.trans (b.keeps h)

/-- The scratch directory and the directories of the output tree are where they were. -/
theorem Begins.reaches_scratch (b : Begins tree scratch made start out work)
    (h : Frame start fs (MayWrite out work)) : Reaches fs scratch work := by
  obtain ⟨dir, name, rfl, hn⟩ := b.named
  exact (hn.keepsDirs (b.keeps_made h).dirs).reaches ((b.keeps h).find? _ _ b.find?_work)

theorem Begins.reaches_dir (b : Begins tree scratch made start out work) (hk : Keeps made fs) {name : OsText}
    (hname : name ∈ dirNames) :
    Reaches fs (Path.join tree.root name) (name :: out) ∧
      fs.stat (Path.join tree.root name) = .ok (name :: out, .directory) := by
  have hn := (b.fresh.named name hname).keepsDirs hk.dirs
  have hr := hn.reaches (hk.find? _ _ (b.fresh.directory name hname))
  exact ⟨hr, hr.stat hn.nonempty hn.short⟩

/-- A run begins when the output tree is initialised and the scratch directory is made. -/
theorem exists_begins {root : Path} (hwf : fs.WellFormed) (hroot : root ≠ [])
    (hup : FileSystem.StepsUpFromDirectories (Output.wiped root fs) root)
    (htree : Tree.initialise root fs = .ok tree made) (hscratch : FileSystem.makeDir scratch made = .ok () start)
    (houtside : ∀ loc, start.stat scratch = .ok (loc, .directory) → isInside start tree.javaDir loc = false) :
    tree = ⟨root⟩ ∧ ∃ out work, Begins tree scratch made start out work := by
  obtain ⟨rfl, hwf', out, hfresh⟩ := Output.initialise_eq_ok hwf hroot hup htree
  obtain ⟨dir, name, hn, hf, rfl⟩ := FileSystem.makeDir_eq_ok_iff.1 hscratch
  refine ⟨rfl, out, name :: dir, ⟨hwf', hfresh, ⟨dir, name, rfl, hn⟩, hf, rfl, ?_⟩⟩
  have hkeeps := Keeps.put hf .directory
  have hstat : (made.put (name :: dir) .directory).stat scratch = .ok (name :: dir, .directory) := by
    refine ((hn.keepsDirs hkeeps.dirs).reaches ?_).stat hn.nonempty hn.short
    rw [find?_put (List.cons_ne_nil name dir), if_pos rfl]
  have hjava : "java".toList ∈ dirNames := by decide
  have hnamed := (hfresh.named _ hjava).keepsDirs hkeeps.dirs
  have hinside := houtside _ hstat
  unfold isInside at hinside
  rwa [show Tree.javaDir ⟨root⟩ = Path.join root "java".toList from rfl,
    (hnamed.reaches (hkeeps.find? _ _ (hfresh.directory _ hjava))).stat hnamed.nonempty hnamed.short] at hinside

end

/-! ## Between two sources -/

/-- The state of a run between two sources, when the namespaces in `taken` were processed. -/
structure Swept (start : FileSystem) (out work : Location) (taken : List Namespace) (fs : FileSystem) : Prop where
  wellFormed : fs.WellFormed
  frame : Frame start fs (MayWrite out work)
  free : ∀ ns, ns ∉ taken → fs.find? (ns :: work) = none
  noScript : ∀ x, ¬IsListed fs Output.scriptSuffix work x

theorem Begins.swept {tree : Tree} {scratch : Path} {made start : FileSystem} {out work : Location}
    (b : Begins tree scratch made start out work) : Swept start out work [] start := by
  obtain ⟨dir, name, rfl, hn⟩ := id b.named
  have hwf : start.WellFormed := by
    rw [b.start_eq]
    exact b.wellFormed.put hn.isName hn.lookedUp.short hn.directory (.inr rfl)
  refine ⟨hwf, Frame.refl _ _, fun ns _ => b.find?_mayWrite (.inr (.inl (isBelow_cons _ _))), fun x hx => ?_⟩
  obtain ⟨hb, n, above, content, executable, -, -, he⟩ := hx
  rw [b.find?_mayWrite (.inr (.inl hb))] at he
  cases he

/-- What is written to for one source before its modules are. -/
def MayCompile (out work : Location) (ns : Namespace) (x : Location) : Prop :=
  x = ns :: work ∨ isBelow (ns :: work) x = true ∨ isBelow ("java".toList :: out) x = true

theorem MayCompile.mayWrite {out work x : Location} {ns : Namespace} (h : MayCompile out work ns x) :
    MayWrite out work x := by
  rcases h with rfl | h | h
  · exact .inr (.inl (isBelow_cons ns work))
  · exact .inr (.inl (FileSystem.isBelow_trans (isBelow_cons ns work) h))
  · exact .inl h

section
variable {setup : Setup} {made start fs fs' : FileSystem} {out work : Location} {taken : List Namespace} {file : Path}
  {p : Passage setup taken file fs fs'}

/-- The state of a run when the source is compiled. -/
structure Passage.Compiles (p : Passage setup taken file fs fs') (start : FileSystem) (out work : Location) : Prop where
  wellFormed : p.compiled.WellFormed
  frame : Frame fs p.compiled (MayCompile out work p.ns)
  frame_start : Frame start p.compiled (MayWrite out work)
  workDir : p.compiled.find? (p.ns :: work) = some .directory
  stat : p.compiled.stat (Path.join setup.scratch p.ns) = .ok (p.ns :: work, .directory)

theorem Passage.compiles (b : Begins setup.tree setup.scratch made start out work) (hc : Contained setup.compiler)
    (h : Swept start out work taken fs) (hname : Path.IsName p.ns) : p.Compiles start out work := by
  have hreach := b.reaches_scratch h.frame
  obtain ⟨hnamed, hmade⟩ := FileSystem.makeDirs_join_eq_ok hreach hname (h.free p.ns p.new) p.workDir
  have hshort : OsText.size (Path.join setup.scratch p.ns) < FileSystem.maxPath := hnamed.short
  -- the work directory
  have hwf₁ : p.made.WellFormed := by
    rw [hmade]
    exact h.wellFormed.put hname hnamed.lookedUp.short hreach.directory (.inr rfl)
  have hdir₁ : p.made.find? (p.ns :: work) = some .directory := by
    rw [hmade, find?_put (List.cons_ne_nil _ _), if_pos rfl]
  have hframe₁ : Frame fs p.made (MayCompile out work p.ns) := by
    rw [hmade]
    exact (Frame.put fs (List.cons_ne_nil _ _) _).mono fun x hx => .inl hx
  -- the server's classes
  have hstart : ∀ {g}, Frame fs g (MayCompile out work p.ns) → Frame start g (MayWrite out work) := fun hg =>
    h.frame.trans (hg.mono fun _ hx => hx.mayWrite)
  have hjava := (b.reaches_dir (b.keeps_made (hstart hframe₁)) (by decide : "java".toList ∈ dirNames)).2
  obtain ⟨hframe₂, hwf₂⟩ := (hc.frame hwf₁ hjava).ok p.server
  have hdir₂ : p.served.find? (p.ns :: work) = some .directory := by
    rw [hframe₂.find? _ fun hb => ?_, hdir₁]
    rw [b.not_below_java (isBelow_cons p.ns work)] at hb
    cases hb
  have hframe₂' : Frame fs p.served (MayCompile out work p.ns) :=
    hframe₁.trans (hframe₂.mono fun x hx => .inr (.inr hx))
  -- the generated scripts and declarations
  have hstat : ∀ {g : FileSystem}, Frame start g (MayWrite out work) → g.find? (p.ns :: work) = some .directory →
      g.stat (Path.join setup.scratch p.ns) = .ok (p.ns :: work, .directory) := by
    intro g hg hd
    have hlimit : OsText.size p.ns ≤ g.nameLimit := by
      rw [hg.nameLimit, ← h.frame.nameLimit]
      exact hnamed.lookedUp.short
    exact ((b.reaches_scratch hg).join hname hlimit hd).stat (Path.join_ne_nil hname) hshort
  obtain ⟨hframe₃, hwf₃⟩ := (hc.frame hwf₂ (hstat (hstart hframe₂') hdir₂)).ok p.client
  have hdir₃ : p.compiled.find? (p.ns :: work) = some .directory := by
    rw [hframe₃.find? _ (by simp), hdir₂]
  have hframe₃' : Frame fs p.compiled (MayCompile out work p.ns) :=
    hframe₂'.trans (hframe₃.mono fun x hx => .inr (.inl hx))
  exact ⟨hwf₃, hframe₃', hstart hframe₃', hdir₃, hstat (hstart hframe₃') hdir₃⟩

/-- A module put in its place is the only change, and none to the scratch directory. -/
theorem Begins.puts {tree : Tree} {scratch : Path} (b : Begins tree scratch made start out work)
    (hwf : fs.WellFormed) (hf : Frame start fs (MayWrite out work)) {name file text : Text}
    (hname : name = "js".toList ∨ name = "ts".toList) (hn : Path.IsName file)
    (h : Output.writeAtomically (Path.join (Path.join tree.root name) file) text fs = .ok () fs') :
    Puts fs fs' (file :: name :: out) (.file (.text text) false) ∧ Frame start fs' (MayWrite out work) ∧
      fs'.WellFormed ∧ ∀ x, isBelow work x = true → fs'.find? x = fs.find? x := by
  have hdirs : name ∈ dirNames := by
    rcases hname with rfl | rfl <;> decide
  have hp := Output.putsAt_of_writeAtomically h
  obtain ⟨d, n, hplace, hd, hputs⟩ := id hp
  obtain ⟨rfl, rfl⟩ := hplace.of_join (b.reaches_dir (b.keeps_made hf) hdirs).1 hn
  have hne : n :: name :: out ≠ work := by
    rintro rfl
    exact hd ((b.keeps hf).find? _ _ b.find?_work)
  refine ⟨hputs, hf.trans (hputs.frame.mono ?_), hp.wellFormed hwf, fun x hx => ?_⟩
  · rintro x rfl
    refine .inr (.inr ⟨hne, n, ?_⟩)
    rcases hname with rfl | rfl
    · exact .inl rfl
    · exact .inr rfl
  · rw [hputs.find?, if_neg]
    rintro rfl
    rw [b.not_below_module hdirs] at hx
    cases hx

theorem not_script_and_declaration {name : OsText} (hs : Output.hasSuffix Output.scriptSuffix name = true) :
    Output.hasSuffix Output.declarationSuffix name = false := by
  rw [Bool.eq_false_iff]
  intro hd
  obtain ⟨text, hbytes, hs⟩ := Output.hasSuffix_iff.1 hs
  obtain ⟨text', hbytes', hd⟩ := Output.hasSuffix_iff.1 hd
  obtain rfl : text = text' := by
    rw [← OsText.toText?_eq_some_iff] at hbytes hbytes'
    exact Option.some.inj (hbytes.symm.trans hbytes')
  rcases List.suffix_or_suffix_of_suffix hs hd with h | h
  · exact absurd h (by decide)
  · exact absurd h (by decide)

/-- The state of a run when both modules of the source are written. -/
structure Passage.Publishes (p : Passage setup taken file fs fs') (start : FileSystem) (out work : Location) :
    Prop where
  wellFormed : p.declared.WellFormed
  frame : Frame start p.declared (MayWrite out work)
  same : ∀ x, isBelow work x = true → p.declared.find? x = p.compiled.find? x

theorem Passage.publishes (b : Begins setup.tree setup.scratch made start out work) (h : p.Compiles start out work)
    (hname : Path.IsName p.ns) : p.Publishes start out work := by
  obtain ⟨-, hframe₁, hwf₁, hsame₁⟩ := b.puts h.wellFormed h.frame_start (.inl rfl)
    (Path.isName_append hname.noSlash (by decide) (by decide)) p.scriptWritten
  obtain ⟨-, hframe₂, hwf₂, hsame₂⟩ := b.puts hwf₁ hframe₁ (.inr rfl)
    (Path.isName_append hname.noSlash (by decide) (by decide)) p.declarationWritten
  exact ⟨hwf₂, hframe₂, fun x hx => (hsame₂ x hx).trans (hsame₁ x hx)⟩

/-- The state of a run when the generated files of the source are removed: nothing is in the scratch directory that was
not there before, and no generated script is. -/
structure Passage.Removes (p : Passage setup taken file fs fs') (start : FileSystem) (out work : Location) : Prop where
  wellFormed : fs'.WellFormed
  frame : Frame start fs' (MayWrite out work)
  keeps : ∀ x entry, isBelow work x = true → fs'.find? x = some entry → p.compiled.find? x = some entry
  gone : ∀ x, IsListed p.compiled Output.scriptSuffix (p.ns :: work) x → fs'.find? x = none

theorem Passage.removes (b : Begins setup.tree setup.scratch made start out work) (h : p.Compiles start out work)
    (hname : Path.IsName p.ns) (hp : p.Publishes start out work) : p.Removes start out work := by
  have hinside : ∀ {suffix x}, IsListed p.compiled suffix (p.ns :: work) x → isBelow work x = true := fun hx =>
    FileSystem.isBelow_trans (isBelow_cons p.ns work) hx.1
  have hreach : ∀ {g : FileSystem}, g.WellFormed → Frame start g (MayWrite out work) →
      g.find? (p.ns :: work) = some .directory → Reaches g (Path.join setup.scratch p.ns) (p.ns :: work) :=
    fun hwf hf hd => (b.reaches_scratch hf).join hname (hwf.short p.ns work (by simp [hd])) hd
  -- the declarations
  obtain ⟨dfiles, hdl, hdpaths, -, hdshort⟩ :=
    Output.lists_of_read h.wellFormed h.stat p.declarationsListed p.declarationsRead
  have hdir₁ : p.declared.find? (p.ns :: work) = some .directory := by
    rw [hp.same _ (isBelow_cons p.ns work), h.workDir]
  obtain ⟨_, hremoved, herased₁, hwf₁⟩ := hdl.exists_removed hp.wellFormed (hreach hp.wellFormed hp.frame hdir₁)
    (fun x hx => hp.same x (hinside hx)) hdshort
  rw [← hdpaths, p.declarationsRemoved] at hremoved
  cases hremoved
  have hframe₁ : Frame start p.cleared (MayWrite out work) :=
    hp.frame.trans (herased₁.frame.mono fun x hx => .inr (.inl (hinside hx)))
  have hdir₂ : p.cleared.find? (p.ns :: work) = some .directory := by
    rw [herased₁.frame.find? _ fun hx => by simpa using hx.1, hdir₁]
  -- the scripts, which are other files
  obtain ⟨sfiles, hsl, hspaths, -, hsshort⟩ :=
    Output.lists_of_read h.wellFormed h.stat p.scriptsListed p.scriptsRead
  have hsame : ∀ x, IsListed p.compiled Output.scriptSuffix (p.ns :: work) x →
      p.cleared.find? x = p.compiled.find? x := by
    intro x hx
    rw [herased₁.frame.find?, hp.same x (hinside hx)]
    obtain ⟨-, name, above, _, _, rfl, hs, -⟩ := hx
    rintro ⟨-, name', above', _, _, e, hd, -⟩
    rw [← (List.cons.inj e).1, not_script_and_declaration hs] at hd
    cases hd
  obtain ⟨_, hremoved, herased₂, hwf₂⟩ := hsl.exists_removed hwf₁ (hreach hwf₁ hframe₁ hdir₂) hsame hsshort
  rw [← hspaths, p.scriptsRemoved] at hremoved
  cases hremoved
  refine ⟨hwf₂, hframe₁.trans (herased₂.frame.mono fun x hx => .inr (.inl (hinside hx))), fun x entry hx he => ?_,
    herased₂.gone⟩
  rw [← hp.same x hx]
  exact herased₁.keeps.find? _ _ (herased₂.keeps.find? _ _ he)

/-- A processed source leads from one such state to the next. -/
theorem Passage.swept (b : Begins setup.tree setup.scratch made start out work) (hc : Contained setup.compiler)
    (h : Swept start out work taken fs) (hname : Path.IsName p.ns) : Swept start out work (taken ++ [p.ns]) fs' := by
  have hcomp := p.compiles b hc h hname
  have hr := p.removes b hcomp hname (p.publishes b hcomp hname)
  refine ⟨hr.wellFormed, hr.frame, fun ns hns => ?_, fun x hx => ?_⟩
  · rw [List.mem_append, not_or, List.mem_singleton] at hns
    rw [Option.eq_none_iff_forall_ne_some]
    intro entry he
    have hold := hr.keeps _ _ (isBelow_cons ns work) he
    rw [hcomp.frame.find?, h.free ns hns.1] at hold
    · cases hold
    · rintro (e | hb | hb)
      · exact hns.2 (List.cons.inj e).1
      · exact FileSystem.not_isBelow_cons_cons _ _ _ hb
      · rw [b.not_below_java (isBelow_cons ns work)] at hb
        cases hb
  · -- a script that is left was there before the source was compiled, or it was removed
    obtain ⟨hb, name, above, content, executable, hplace, hs, he⟩ := hx
    have hold := hr.keeps x _ hb he
    by_cases hown : isBelow (p.ns :: work) x = true
    · rw [hr.gone x ⟨hown, name, above, content, executable, hplace, hs, hold⟩] at he
      cases he
    · rw [hcomp.frame.find?] at hold
      · exact h.noScript x ⟨hb, name, above, content, executable, hplace, hs, hold⟩
      · rintro (rfl | hb' | hb')
        · rw [hcomp.workDir] at hold
          cases hold
        · exact hown hb'
        · rw [b.not_below_java hb] at hb'
          cases hb'

/-- A run over some sources leads from such a state to such a state. -/
theorem processAll_swept {files : List Path} {done summary : Summary} {j j' : Journal}
    (b : Begins setup.tree setup.scratch made start out work) (hc : Contained setup.compiler)
    (h : Swept start out work done.modules j.files) (hdots : ['.'] ∉ summary.modules ∧ ['.', '.'] ∉ summary.modules)
    (hrun : processAll setup done files j = .ok summary j') : Swept start out work summary.modules j'.files := by
  have hall : Ends (fun s j' => (['.'] ∉ s.modules ∧ ['.', '.'] ∉ s.modules) → Swept start out work s.modules j'.files)
      (fun _ _ => True) (processAll setup done files j) := by
    refine processAll_ends (P := fun taken j => (['.'] ∉ taken ∧ ['.', '.'] ∉ taken) →
      Swept start out work taken j.files) (fun v hv hP => ?_) fun _ => h
    refine Chain.ends_iff.2 ⟨fun r j' hr hnames => ?_, fun _ _ _ => trivial⟩
    obtain ⟨ns, missing⟩ := r
    obtain ⟨p, rfl, -⟩ := exists_passage hr
    simp only [List.mem_append, List.mem_singleton, not_or] at hnames
    obtain ⟨hne, hchars⟩ := isNamespaceChar_of_namespace? (Idl.namespace?_of_ownNamespace p.named)
    have hname : Path.IsName p.ns := isName_of_isNamespaceChar hne hchars (Ne.symm hnames.1.2) (Ne.symm hnames.2.2)
    exact p.swept b hc (hP ⟨hnames.1.1, hnames.2.1⟩) hname
  exact hall.ok hrun hdots

end

end ThriftModules.Run
