import ThriftModules.Proofs.Idl.Dotted
import ThriftModules.Proofs.Idl.Resolved
import ThriftModules.Proofs.Run.Alone

/-!
# A run between two sources

* `Ready` : the state that a run starts from, its output tree and its scratch directory there and empty;
* `Between` : the state after some sources: their modules stand in the output tree, nothing else there has changed that
  a later source could read, and the work directory of every other namespace is free;
* `Clear` : a source whose lookups keep out of what the run keeps for itself;
* `Passage.composes`, `Passage.between` : a processed source comes to the modules that it comes to on its own, and leads
  from one such state to the next.
-/

namespace ThriftModules.Run

set_option autoImplicit false

open Idl (Source Includes SearchPath readSource resolveIncludes)
open Output (Tree HoldsAt Puts dirNames)
open FileSystem (Frame Keeps KeepsDirs Named Reaches Avoids isBelow isBelow_cons find?_put)

/-! ## States -/

/-- The state that a run starts from: its output tree stands in the directory at `out`, its scratch directory at
`work`; both are empty, and they lie apart. -/
structure Ready (setup : Setup) (start : FileSystem) (out work : Location) : Prop where
  wellFormed : start.WellFormed
  tree : setup.tree.IsFreshAt start out
  scratch : start.stat setup.scratch = .ok (work, .directory)
  empty : ∀ x, isBelow work x = true → start.find? x = none
  apart : ∀ name ∈ dirNames, ∀ x, isBelow (name :: out) x = true → x ≠ work ∧ isBelow work x = false

def Setup.reserved (setup : Setup) (start : FileSystem) (x : Location) : Prop :=
  Run.reserved setup.tree setup.scratch start x = true

/-- The state of a run after the sources whose modules are `done`. -/
structure Between (setup : Setup) (start : FileSystem) (out work : Location) (done : List Modules)
    (fs : FileSystem) : Prop where
  wellFormed : fs.WellFormed
  frame : Frame start fs (setup.reserved start)
  free : ∀ ns, ns ∉ done.map Modules.ns → fs.find? (ns :: work) = none
  scripts : HoldsAt fs ("js".toList :: out) (done.map Modules.scriptFile)
  declarations : HoldsAt fs ("ts".toList :: out) (done.map Modules.declarationFile)
  classes : HasNoLinks fs ("java".toList :: out)

/-- A source whose lookups keep out of what the run keeps for itself, with a dotted namespace. -/
structure Clear (setup : Setup) (start : FileSystem) (file : Path) : Prop where
  source : Avoids start (setup.reserved start) file
  includes : ∀ source, readSource start file = .ok source → ∀ name ∈ source.includes, ∀ dir ∈ setup.search.dirs,
    Avoids start (setup.reserved start) (Path.join dir (SearchPath.fileOf name))
  dotted : ∀ source ns, readSource start file = .ok source → source.ownNamespace source.identifier = .ok ns → IsDotted ns

section
variable {setup : Setup} {start fs fs' : FileSystem} {out work : Location} {done : List Modules} {file : Path}

theorem Ready.reserved_iff (h : Ready setup start out work) {x : Location} :
    setup.reserved start x ↔ isBelow work x = true ∨ ∃ name ∈ dirNames, isBelow (name :: out) x = true := by
  have hdirs : setup.tree.dirs = dirNames.map (Path.join setup.tree.root) := rfl
  have hinside : ∀ name ∈ dirNames, isInside start (Path.join setup.tree.root name) x = isBelow (name :: out) x := by
    intro name hname
    have hn := h.tree.named name hname
    unfold isInside
    rw [(hn.reaches (h.tree.directory name hname)).stat hn.nonempty hn.short]
  have hscratch : isInside start setup.scratch x = isBelow work x := by
    unfold isInside
    rw [h.scratch]
  unfold Setup.reserved Run.reserved
  rw [List.any_cons, Bool.or_eq_true, hscratch, hdirs, List.any_map, List.any_eq_true]
  refine or_congr_right (exists_congr fun name => and_congr_right fun hname => ?_)
  rw [Function.comp_apply, hinside name hname]

theorem Ready.find?_reserved (h : Ready setup start out work) {x : Location} (hx : setup.reserved start x) :
    start.find? x = none := by
  rcases h.reserved_iff.1 hx with hx | ⟨name, hname, hx⟩
  · exact h.empty x hx
  · exact h.tree.empty name hname x hx

theorem Ready.reaches (h : Ready setup start out work) : Reaches start setup.scratch work :=
  (FileSystem.stat_eq_directory_iff.1 h.scratch).2.2

theorem Between.keeps (h : Between setup start out work done fs) (hr : Ready setup start out work) : Keeps start fs :=
  h.frame.keeps fun _ hx => hr.find?_reserved hx

theorem Ready.between (h : Ready setup start out work) : Between setup start out work [] start := by
  have hnone : ∀ name ∈ dirNames, HoldsAt start (name :: out) [] := by
    intro name hname x entry hx
    rw [h.tree.empty name hname x hx]
    simp
  refine ⟨h.wellFormed, Frame.refl start _, fun ns _ => h.empty _ (isBelow_cons ns work), hnone _ (by decide),
    hnone _ (by decide), fun x target hx => ?_⟩
  rw [h.tree.empty _ (by decide) x hx]
  simp

/-! ## One step -/

theorem Ready.dir_of_keeps {name : OsText} (hr : Ready setup start out work) (hname : name ∈ dirNames)
    (hk : KeepsDirs start fs) : Named fs (Path.join setup.tree.root name) out name ∧
      Reaches fs (Path.join setup.tree.root name) (name :: out) := by
  have hn := (hr.tree.named name hname).keepsDirs hk
  exact ⟨hn, hn.reaches (hk.find? _ _ (hr.tree.directory name hname) (by simp))⟩

theorem Ready.stat_dir {name : OsText} (hr : Ready setup start out work) (hname : name ∈ dirNames)
    (hk : KeepsDirs start fs) : fs.stat (Path.join setup.tree.root name) = .ok (name :: out, .directory) := by
  obtain ⟨hn, hreach⟩ := hr.dir_of_keeps hname hk
  exact hreach.stat hn.nonempty hn.short

variable {taken : List Namespace} {p : Passage setup taken file fs fs'}

theorem Passage.read_start (hb : Between setup start out work done fs) (hc : Clear setup start file) :
    readSource start file = .ok p.source := by
  rw [← Idl.readSource_congr (hc.source.stat_eq hb.frame)]
  exact p.read

theorem Passage.resolved_start (hb : Between setup start out work done fs) (hc : Clear setup start file) :
    resolveIncludes setup.search start p.source = .ok p.includes := by
  rw [← Idl.resolveIncludes_congr fun name hname dir hdir =>
    (hc.includes p.source (p.read_start hb hc) name hname dir hdir).stat_eq hb.frame]
  exact p.resolved

theorem Passage.isDotted (hb : Between setup start out work done fs) (hc : Clear setup start file) : IsDotted p.ns :=
  hc.dotted p.source p.ns (p.read_start hb hc) p.named

/-- The work directory of a namespace stands in the scratch directory, and it is empty. -/
structure HasWorkDir (setup : Setup) (start : FileSystem) (work : Location) (ns : Namespace) (fs : FileSystem) :
    Prop where
  wellFormed : fs.WellFormed
  frame : Frame start fs (setup.reserved start)
  named : Named fs (Path.join setup.scratch ns) work ns
  directory : fs.find? (ns :: work) = some .directory
  empty : fs.children (ns :: work) = []

theorem HasWorkDir.stat {ns : Namespace} (h : HasWorkDir setup start work ns fs) :
    fs.stat (Path.join setup.scratch ns) = .ok (ns :: work, .directory) :=
  (h.named.reaches h.directory).stat h.named.nonempty h.named.short

theorem Ready.keepsDirs (hr : Ready setup start out work) (h : Frame start fs (setup.reserved start)) :
    KeepsDirs start fs :=
  (h.keeps fun _ hx => hr.find?_reserved hx).dirs

theorem Ready.hasWorkDir_put {ns : Namespace} (hr : Ready setup start out work) (hwf : fs.WellFormed)
    (hframe : Frame start fs (setup.reserved start)) (hfree : fs.find? (ns :: work) = none)
    (hname : Path.IsName ns) (hlen : OsText.size (Path.join setup.scratch ns) < FileSystem.maxPath)
    (hshort : OsText.size ns ≤ start.nameLimit) :
    HasWorkDir setup start work ns (fs.put (ns :: work) .directory) := by
  have hframe' : Frame start (fs.put (ns :: work) .directory) (setup.reserved start) := by
    refine hframe.trans ((Frame.put fs (List.cons_ne_nil _ _) _).mono ?_)
    rintro x rfl
    exact hr.reserved_iff.2 (.inl (isBelow_cons ns work))
  have hreach := hr.reaches.keepsDirs (hr.keepsDirs hframe)
  refine ⟨hwf.put hname (hframe.nameLimit ▸ hshort) hreach.directory (.inr rfl), hframe', ?_, ?_, ?_⟩
  · exact (hr.reaches.keepsDirs (hr.keepsDirs hframe')).named hname hlen (hframe'.nameLimit ▸ hshort)
  · rw [find?_put (List.cons_ne_nil _ _), if_pos rfl]
  · apply FileSystem.children_eq_nil
    intro n
    rw [find?_put (List.cons_ne_nil _ _), if_neg (by simp)]
    exact hwf.find?_below (by rw [hfree]; simp) (isBelow_cons n _)

theorem Ready.not_isBelow_out {name : OsText} (hr : Ready setup start out work) (hname : name ∈ dirNames) {x : Location}
    (hx : isBelow work x = true) : isBelow (name :: out) x = false := by
  rw [Bool.eq_false_iff]
  intro h
  rw [(hr.apart name hname x h).2] at hx
  cases hx

theorem Ready.not_workDir {name : OsText} (hr : Ready setup start out work) (hname : name ∈ dirNames) {x : Location}
    (hx : isBelow (name :: out) x = true) (ns : Namespace) : ¬(x = ns :: work ∨ isBelow (ns :: work) x = true) := by
  have hwork := (hr.apart name hname x hx).2
  rintro (rfl | h)
  · rw [isBelow_cons] at hwork
    cases hwork
  · rw [FileSystem.isBelow_trans (isBelow_cons ns work) h] at hwork
    cases hwork

/-- A change to the server's classes does not touch the work directory. -/
theorem HasWorkDir.of_frame {ns : Namespace} (h : HasWorkDir setup start work ns fs) (hr : Ready setup start out work)
    (hf : Frame fs fs' (isBelow ("java".toList :: out) · = true)) (hwf : fs'.WellFormed) :
    HasWorkDir setup start work ns fs' := by
  have hjava : "java".toList ∈ dirNames := by decide
  have hsame : ∀ x, isBelow work x = true → fs'.find? x = fs.find? x := by
    intro x hx
    apply hf.find? x
    rw [hr.not_isBelow_out hjava hx]
    exact Bool.false_ne_true
  have hframe : Frame start fs' (setup.reserved start) :=
    h.frame.trans (hf.mono fun x hx => hr.reserved_iff.2 (.inr ⟨_, hjava, hx⟩))
  have hshort : OsText.size ns ≤ fs'.nameLimit := hf.nameLimit ▸ h.named.lookedUp.short
  refine ⟨hwf, hframe, ?_, ?_, FileSystem.children_eq_nil fun n => ?_⟩
  · exact (hr.reaches.keepsDirs (hr.keepsDirs hframe)).named h.named.isName h.named.short hshort
  · rw [hsame _ (isBelow_cons ns work), h.directory]
  · have hbelow : isBelow (ns :: work) (n :: ns :: work) = true := isBelow_cons n _
    rw [hsame _ (FileSystem.isBelow_trans (isBelow_cons ns work) hbelow)]
    exact h.wellFormed.below_of_children h.empty hbelow

/-- The work directory when the client's files were compiled into it. -/
structure HasCompiled (setup : Setup) (work : Location) (ns : Namespace) (fs compiled : FileSystem) : Prop where
  wellFormed : compiled.WellFormed
  frame : Frame fs compiled (isBelow (ns :: work) · = true)
  named : Named compiled (Path.join setup.scratch ns) work ns
  directory : compiled.find? (ns :: work) = some .directory

theorem HasWorkDir.compile {ns : Namespace} {r : Request} {outcome : Outcome} (h : HasWorkDir setup start work ns fs)
    (hr : Ready setup start out work) (hconf : Confined setup.compiler)
    (hdir : r.outputDir = Path.join setup.scratch ns) (hc : setup.compiler r fs = .ok outcome fs') :
    HasCompiled setup work ns fs fs' := by
  have hnone : HasNoLinks fs (ns :: work) := by
    intro x target hx
    rw [h.wellFormed.below_of_children h.empty hx]
    simp
  obtain ⟨hf, hwf, -⟩ := hconf.frame h.wellFormed (hdir ▸ h.stat) hnone hc
  have hframe : Frame start fs' (setup.reserved start) := by
    refine h.frame.trans (hf.mono fun x hx => hr.reserved_iff.2 (.inl ?_))
    exact FileSystem.isBelow_trans (isBelow_cons ns work) hx
  have hshort : OsText.size ns ≤ fs'.nameLimit := hf.nameLimit ▸ h.named.lookedUp.short
  refine ⟨hwf, hf, ?_, ?_⟩
  · exact (hr.reaches.keepsDirs (hr.keepsDirs hframe)).named h.named.isName h.named.short hshort
  · rw [hf.find? _ (by simp), h.directory]

/-- What the step comes to up to the compiled files: only the work directory and the server's classes are touched. -/
structure Passage.Compiled (p : Passage setup taken file fs fs') (out work : Location) : Prop where
  wellFormed : p.compiled.WellFormed
  frame : Frame fs p.compiled fun x =>
    x = p.ns :: work ∨ isBelow (p.ns :: work) x = true ∨ isBelow ("java".toList :: out) x = true
  workDir : Named p.compiled (Path.join setup.scratch p.ns) work p.ns
  directory : p.compiled.find? (p.ns :: work) = some .directory
  classes : HasNoLinks p.compiled ("java".toList :: out)

/-- What the compilation of the source alone comes to: the same files, in the same work directory. -/
structure Passage.Alone (p : Passage setup taken file fs fs') (start : FileSystem) (work : Location)
    (made compiled : FileSystem) : Prop where
  makeDirs : FileSystem.makeDirs (Path.join setup.scratch p.ns) start = .ok () made
  client : setup.compiler (requestOf setup file (Path.join setup.scratch p.ns) .javaScript
    setup.settings.scriptOptions) made = .ok p.outcome compiled
  wellFormed : compiled.WellFormed
  workDir : Named compiled (Path.join setup.scratch p.ns) work p.ns
  directory : compiled.find? (p.ns :: work) = some .directory
  same : ∀ x, isBelow (p.ns :: work) x = true → compiled.find? x = p.compiled.find? x

/-- The work directory is made, and it would be made in the first state as well. -/
theorem Passage.hasWorkDir (hr : Ready setup start out work) (hb : Between setup start out work done fs)
    (hc : Clear setup start file) (hw : taken = done.map Modules.ns) :
    HasWorkDir setup start work p.ns p.made ∧ Frame fs p.made (· = p.ns :: work) ∧
      ∃ made, FileSystem.makeDirs (Path.join setup.scratch p.ns) start = .ok () made ∧
        HasWorkDir setup start work p.ns made := by
  subst hw
  have hname := (p.isDotted hb hc).isName
  have hfree := hb.free p.ns p.new
  have hfree₀ : start.find? (p.ns :: work) = none := hr.empty _ (isBelow_cons p.ns work)
  have hreach := hr.reaches.keepsDirs (hb.keeps hr).dirs
  obtain ⟨hnamed, hmade⟩ := FileSystem.makeDirs_join_eq_ok hreach hname hfree p.workDir
  have hshort : OsText.size p.ns ≤ start.nameLimit := hb.frame.nameLimit ▸ hnamed.lookedUp.short
  rw [hmade]
  refine ⟨hr.hasWorkDir_put hb.wellFormed hb.frame hfree hname hnamed.short hshort,
    Frame.put fs (List.cons_ne_nil _ _) _, start.put (p.ns :: work) .directory, ?_,
    hr.hasWorkDir_put hr.wellFormed (Frame.refl start _) hfree₀ hname hnamed.short hshort⟩
  rw [FileSystem.makeDirs_join hr.reaches hname hfree₀, if_neg]
  exact not_or.2 ⟨Nat.not_le.2 hnamed.short, Nat.not_lt.2 hshort⟩

/-- Whatever was processed before, the source is compiled as it is on its own. -/
theorem Passage.exists_alone (hr : Ready setup start out work) (hconf : Confined setup.compiler)
    (hdet : Determined setup.compiler (Run.reserved setup.tree setup.scratch start))
    (hb : Between setup start out work done fs) (hc : Clear setup start file) (hw : taken = done.map Modules.ns) :
    p.Compiled out work ∧ ∃ made compiled, p.Alone start work made compiled := by
  obtain ⟨hmade, hfr_made, made, hmakeDirs, halone⟩ := p.hasWorkDir hr hb hc hw
  have hjava : "java".toList ∈ dirNames := by decide
  -- the server's classes go elsewhere
  have hnone : HasNoLinks p.made ("java".toList :: out) :=
    hb.classes.congr fun x hx => hfr_made.find? x fun h => hr.not_workDir hjava hx p.ns (.inl h)
  obtain ⟨hfr_java, hwf_served, hclasses⟩ :=
    hconf.frame hmade.wellFormed (hr.stat_dir hjava (hr.keepsDirs hmade.frame)) hnone p.server
  have hserved := hmade.of_frame hr hfr_java hwf_served
  -- the client's files are the same in both work directories
  obtain ⟨compiled, hclient, hsame⟩ := hdet.same hserved.wellFormed halone.wellFormed
    (hserved.frame.symm.trans halone.frame) hserved.stat halone.stat hserved.empty halone.empty p.client
  have hcompiled := hserved.compile hr hconf rfl p.client
  have hcompiled' := halone.compile hr hconf rfl hclient
  refine ⟨⟨hcompiled.wellFormed, ?_, hcompiled.named, hcompiled.directory, ?_⟩, made, compiled, hmakeDirs, hclient,
    hcompiled'.wellFormed, hcompiled'.named, hcompiled'.directory, hsame⟩
  · exact (hfr_made.mono fun x hx => .inl hx).trans
      ((hfr_java.mono fun x hx => .inr (.inr hx)).trans (hcompiled.frame.mono fun x hx => .inr (.inl hx)))
  · exact hclasses.congr fun x hx => hcompiled.frame.find? x fun h => hr.not_workDir hjava hx p.ns (.inr h)

/-- A processed source comes to the modules that it comes to on its own. -/
theorem Passage.composes {made compiled : FileSystem} (hb : Between setup start out work done fs)
    (hc : Clear setup start file) (hp : p.Compiled out work) (ha : p.Alone start work made compiled) :
    Composes setup start file p.modules := by
  have hfiles := fun suffix : Text =>
    @Output.readFiles_of_below _ _ _ _ _ suffix hp.wellFormed ha.wellFormed hp.workDir ha.workDir hp.directory
      ha.directory ha.same
  obtain ⟨hdl, hdr⟩ := hfiles Output.declarationSuffix
  obtain ⟨hsl, hsr⟩ := hfiles Output.scriptSuffix
  exact composes_of (p.read_start hb hc) p.named (p.resolved_start hb hc) ha.makeDirs ha.client p.success
    (hdl.trans p.declarationsListed) ((hdr _ p.declarationsListed).trans p.declarationsRead)
    (hsl.trans p.scriptsListed) ((hsr _ p.scriptsListed).trans p.scriptsRead)

/-- What the step comes to in the end: the two modules are written, and only the work directory and the server's
classes are touched besides. -/
structure Passage.Written (p : Passage setup taken file fs fs') (out work : Location) : Prop where
  wellFormed : fs'.WellFormed
  find? : ∀ x, ¬(x = p.ns :: work ∨ isBelow (p.ns :: work) x = true ∨ isBelow ("java".toList :: out) x = true) →
    fs'.find? x =
      if x = p.modules.declarationFile.1 :: "ts".toList :: out then
        some (.file (.text p.modules.declarationFile.2) false)
      else if x = p.modules.scriptFile.1 :: "js".toList :: out then some (.file (.text p.modules.scriptFile.2) false)
      else fs.find? x
  workDir : fs'.workDir = fs.workDir
  nameLimit : fs'.nameLimit = fs.nameLimit
  classes : HasNoLinks fs' ("java".toList :: out)

theorem Passage.written (hr : Ready setup start out work) (hb : Between setup start out work done fs)
    (hc : Clear setup start file) (hp : p.Compiled out work) : p.Written out work := by
  have hdot := p.isDotted hb hc
  have hjs : "js".toList ∈ dirNames := by decide
  have hts : "ts".toList ∈ dirNames := by decide
  have hscript : '/' ∉ Output.scriptSuffix := by decide
  have hdeclaration : '/' ∉ Output.declarationSuffix := by decide
  have hfr_compiled : Frame start p.compiled (setup.reserved start) := by
    refine hb.frame.trans (hp.frame.mono fun x hx => hr.reserved_iff.2 ?_)
    rcases hx with rfl | hx | hx
    · exact .inl (isBelow_cons p.ns work)
    · exact .inl (FileSystem.isBelow_trans (isBelow_cons p.ns work) hx)
    · exact .inr ⟨_, by decide, hx⟩
  -- both modules are written
  obtain ⟨hputs, hwf₁⟩ := Output.writeAtomically_eq_ok hp.wellFormed (hr.dir_of_keeps hjs (hr.keepsDirs hfr_compiled)).2
    (hdot.isName_append hscript) p.scriptWritten
  have hfr_scripted : Frame start p.scripted (setup.reserved start) :=
    hfr_compiled.trans (hputs.frame.mono fun x hx => hr.reserved_iff.2 (.inr ⟨_, hjs, hx ▸ isBelow_cons _ _⟩))
  obtain ⟨hputs', hwf₂⟩ := Output.writeAtomically_eq_ok hwf₁ (hr.dir_of_keeps hts (hr.keepsDirs hfr_scripted)).2
    (hdot.isName_append hdeclaration) p.declarationWritten
  -- the generated files are removed, none of which is a module
  have hdirs : KeepsDirs p.declared p.compiled := by
    refine ⟨fun x entry hx he => ?_, (hputs'.workDir.trans hputs.workDir).symm,
      (hputs'.nameLimit.trans hputs.nameLimit).symm⟩
    rw [hputs'.find?] at hx
    split at hx
    · cases hx
      exact absurd rfl (he _ _)
    · rw [hputs.find?] at hx
      split at hx
      · cases hx
        exact absurd rfl (he _ _)
      · exact hx
  obtain ⟨hfr₁, hkeep, hwf₃⟩ := Output.removeFiles_of_listFiles hp.wellFormed hwf₂ hdirs hp.workDir hp.directory
    p.declarationsListed p.declarationsRemoved
  obtain ⟨hfr₂, -, hwf₄⟩ := Output.removeFiles_of_listFiles hp.wellFormed hwf₃ (hkeep.dirs.trans hdirs) hp.workDir
    hp.directory p.scriptsListed p.scriptsRemoved
  have hfr := hfr₁.trans hfr₂
  refine ⟨hwf₄, fun x hx => ?_, ?_, ?_, hp.classes.congr fun x hx => ?_⟩
  · rw [hfr.find? x fun h => hx (.inr (.inl h)), hputs'.find?, hputs.find?, hp.frame.find? x hx]
    rfl
  · rw [hfr.workDir, hputs'.workDir, hputs.workDir, hp.frame.workDir]
  · rw [hfr.nameLimit, hputs'.nameLimit, hputs.nameLimit, hp.frame.nameLimit]
  · have hnot := hr.not_workDir (by decide) hx p.ns
    rw [hfr.find? x fun h => hnot (.inr h), hputs'.find?, if_neg, hputs.find?, if_neg]
    · exact FileSystem.ne_cons_of_isBelow (by decide) hx _
    · exact FileSystem.ne_cons_of_isBelow (by decide) hx _

theorem Passage.Written.frame (hp : p.Written out work) (hr : Ready setup start out work)
    (hb : Between setup start out work done fs) : Frame start fs' (setup.reserved start) := by
  refine ⟨fun x hx => ?_, hp.workDir.trans hb.frame.workDir, hp.nameLimit.trans hb.frame.nameLimit⟩
  have hout : ∀ name ∈ dirNames, isBelow (name :: out) x ≠ true := fun name hname h =>
    hx (hr.reserved_iff.2 (.inr ⟨name, hname, h⟩))
  have hwork : isBelow work x ≠ true := fun h => hx (hr.reserved_iff.2 (.inl h))
  rw [hp.find? x, if_neg, if_neg, hb.frame.find? x hx]
  · rintro rfl
    exact hout _ (by decide) (isBelow_cons _ _)
  · rintro rfl
    exact hout _ (by decide) (isBelow_cons _ _)
  · rintro (rfl | h | h)
    · exact hwork (isBelow_cons p.ns work)
    · exact hwork (FileSystem.isBelow_trans (isBelow_cons p.ns work) h)
    · exact hout _ (by decide) h

theorem Passage.Written.find?_workDir (hp : p.Written out work) (hr : Ready setup start out work) {ns : Namespace}
    (hne : ns ≠ p.ns) : fs'.find? (ns :: work) = fs.find? (ns :: work) := by
  have hout : ∀ name ∈ dirNames, isBelow (name :: out) (ns :: work) = false := fun name hname =>
    hr.not_isBelow_out hname (isBelow_cons ns work)
  have hentry : ∀ name ∈ dirNames, ∀ entry, ns :: work ≠ entry :: name :: out := by
    intro name hname entry e
    have hnot := hout name hname
    rw [e, isBelow_cons] at hnot
    cases hnot
  rw [hp.find?, if_neg, if_neg]
  · exact hentry _ (by decide) _
  · exact hentry _ (by decide) _
  · rintro (e | e | e)
    · exact hne (List.cons.inj e).1
    · have hlt := FileSystem.length_lt_of_isBelow e
      simp at hlt
    · rw [hout _ (by decide)] at e
      cases e

theorem Passage.Written.find?_modules (hp : p.Written out work) (hr : Ready setup start out work) {name : OsText}
    (hname : name ∈ dirNames) (hne : name ≠ "java".toList) {x : Location} (hx : isBelow (name :: out) x = true) :
    fs'.find? x =
      if x = p.modules.declarationFile.1 :: "ts".toList :: out then
        some (.file (.text p.modules.declarationFile.2) false)
      else if x = p.modules.scriptFile.1 :: "js".toList :: out then some (.file (.text p.modules.scriptFile.2) false)
      else fs.find? x := by
  apply hp.find? x
  rw [← or_assoc, not_or]
  refine ⟨hr.not_workDir hname hx p.ns, ?_⟩
  rw [FileSystem.not_isBelow_of_isBelow hne hx]
  exact Bool.false_ne_true

/-- A processed source leads to the next state. -/
theorem Passage.between (hr : Ready setup start out work) (hb : Between setup start out work done fs)
    (hw : taken = done.map Modules.ns) (hp : p.Written out work) :
    Between setup start out work (done ++ [p.modules]) fs' := by
  subst hw
  have hnew : ∀ (suffix : Text), ∀ m ∈ done, m.ns ++ suffix ≠ p.ns ++ suffix := fun suffix m hm e =>
    p.new (List.mem_map.2 ⟨m, hm, List.append_cancel_right e⟩)
  refine ⟨hp.wellFormed, hp.frame hr hb, fun ns hns => ?_, ?_, ?_, hp.classes⟩
  · rw [List.map_append, List.mem_append, not_or] at hns
    obtain ⟨hold, hne⟩ := hns
    have hne' : ns ≠ p.ns := by simpa [Passage.modules, modulesOf] using hne
    rw [hp.find?_workDir hr hne', hb.free ns hold]
  · rw [List.map_append]
    refine hb.scripts.snoc (fun x hx => ?_) fun f hf => ?_
    · rw [hp.find?_modules hr (by decide) (by decide) hx, if_neg (FileSystem.ne_cons_of_isBelow (by decide) hx _)]
      rfl
    · obtain ⟨m, hm, rfl⟩ := List.mem_map.1 hf
      exact hnew Output.scriptSuffix m hm
  · rw [List.map_append]
    refine hb.declarations.snoc (fun x hx => ?_) fun f hf => ?_
    · have hscript : x ≠ p.modules.scriptFile.1 :: "js".toList :: out :=
        FileSystem.ne_cons_of_isBelow (by decide) hx _
      rw [hp.find?_modules hr (by decide) (by decide) hx, if_neg hscript]
      rfl
    · obtain ⟨m, hm, rfl⟩ := List.mem_map.1 hf
      exact hnew Output.declarationSuffix m hm

end

end ThriftModules.Run
