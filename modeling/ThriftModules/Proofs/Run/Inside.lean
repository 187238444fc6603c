import ThriftModules.Proofs.Run.Independent
import ThriftModules.Proofs.Run.Visits

/-!
# What a source reads and removes

* `Draft.ListedAt` : the generated files of a draft are the listed ones of its work directory (`Drafted.listedAt`);
* `publish_ends` : publishing writes the script module, then the declaration module, then clears the work directory;
* `declared_namespace_inside` : what a declared namespace can be, and that unless it is one or two dots, all that is read
  as generated and all that is removed lies in the directory of that name in the scratch directory.
-/

namespace ThriftModules.Run

set_option autoImplicit false

open Idl (Source)
open Output (Tree IsFileBelow PutsAt listFiles removeFiles writeAtomically)
open FileSystem (Frame Keeps KeepsDirs Named Reaches isBelow)
open Chain (Ends)

/-! ## The work directory -/

/-- The generated files of a draft are those that its work directory lists, which stands in the directory at `work`. -/
structure Draft.ListedAt (d : Draft) (setup : Setup) (work : Location) (fs : FileSystem) : Prop where
  wellFormed : fs.WellFormed
  named : Named fs (Path.join setup.scratch d.modules.ns) work d.modules.ns
  directory : fs.find? (d.modules.ns :: work) = some .directory
  declarations : listFiles fs (Path.join setup.scratch d.modules.ns) Output.declarationSuffix = .ok d.declarationFiles
  scripts : listFiles fs (Path.join setup.scratch d.modules.ns) Output.scriptSuffix = .ok d.scriptFiles

section
variable {setup : Setup} {taken : List Namespace} {file : Path} {d : Draft} {work : Location}
  {fs fs' g g' : FileSystem} {j : Journal}

theorem named_of_listFiles {base : Path} {loc : Location} {name suffix : Text} {files : List Path}
    (hbase : Reaches fs base loc) (hn : Path.IsName name)
    (hl : listFiles fs (Path.join base name) suffix = .ok files) : Named fs (Path.join base name) loc name := by
  have hslot := hbase.slot_join hn
  by_cases hlong : OsText.size (Path.join base name) ≥ FileSystem.maxPath ∨ OsText.size name > fs.nameLimit
  · rw [if_pos hlong] at hslot
    unfold listFiles FileSystem.walkedFiles FileSystem.walk FileSystem.lstat at hl
    rw [hslot] at hl
    cases hl
  · rw [if_neg hlong] at hslot
    exact (FileSystem.slot_eq_name_iff.1 hslot).1

theorem Drafted.listedAt (h : Drafted setup taken file fs d fs') (hwf : fs'.WellFormed)
    (hscratch : Reaches fs' setup.scratch work) (hn : Path.IsName d.modules.ns)
    (hd : fs'.find? (d.modules.ns :: work) = some .directory) : d.ListedAt setup work fs' :=
  ⟨hwf, named_of_listFiles hscratch hn h.scriptsListed, hd, h.declarationsListed, h.scriptsListed⟩

theorem Draft.ListedAt.isFileBelow (h : d.ListedAt setup work fs) {f : Path}
    (hf : f ∈ d.declarationFiles ++ d.scriptFiles) : IsFileBelow fs (d.modules.ns :: work) f := by
  rcases List.mem_append.1 hf with hf | hf
  · exact Output.isFileBelow_of_mem_listFiles h.wellFormed h.named h.directory h.declarations hf
  · exact Output.isFileBelow_of_mem_listFiles h.wellFormed h.named h.directory h.scripts hf

/-! ## Publishing -/

/-- `fs'` is `fs` without some entries below a directory. -/
structure Cleared (fs fs' : FileSystem) (dir : Location) : Prop where
  frame : Frame fs fs' (isBelow dir · = true)
  keeps : Keeps fs' fs
  wellFormed : fs'.WellFormed

theorem ends_warnMissing {kind : ModuleKind} {missing : List Module.Missing} {E : RunError → Journal → Prop} :
    Ends (fun _ j' => j'.files = j.files) E (warnMissing file kind missing j) := rfl

theorem ends_write {path : Path} {text : Text} :
    Ends (fun _ j' => PutsAt j.files j'.files path text)
      (fun e j' => j'.files = j.files ∧ (Path.parent? path = none ∨ ∃ cause, e = .output (.build path cause)))
      (onDisk .output (writeAtomically path text) j) := by
  refine ends_onDisk ((Output.writeAtomically_ends path text j.files).mono (fun _ _ h => h.1) ?_)
  rintro e _ ⟨hfs, hq | ⟨cause, rfl⟩⟩
  · exact ⟨hfs, .inl hq⟩
  · exact ⟨hfs, .inr ⟨cause, rfl⟩⟩

/-- Both lists of generated files are removed from the work directory, whether the removal goes through or not. -/
theorem Draft.ListedAt.removal_ends (h : d.ListedAt setup work fs) (hwf : j.files.WellFormed)
    (hk : KeepsDirs j.files fs) :
    Ends (fun _ j' => Cleared j.files j'.files (d.modules.ns :: work))
      (fun _ j' => Cleared j.files j'.files (d.modules.ns :: work))
      ((do onDisk .output (removeFiles d.declarationFiles); onDisk .output (removeFiles d.scriptFiles) : RunM Unit)
        j) := by
  have hfirst : Ends (fun _ j' => Cleared j.files j'.files (d.modules.ns :: work))
      (fun _ j' => Cleared j.files j'.files (d.modules.ns :: work))
      (onDisk RunError.output (removeFiles d.declarationFiles) j) :=
    ends_onDisk ((Output.removeFiles_ends_of_listFiles h.wellFormed hwf hk h.named h.directory h.declarations).mono
      (fun _ _ ⟨hf, hk, hwf⟩ => ⟨hf, hk, hwf⟩) fun _ _ ⟨hf, hk, hwf⟩ => ⟨hf, hk, hwf⟩)
  refine hfirst.bind fun _ j₁ _ hc => ends_onDisk ?_
  have hrest := Output.removeFiles_ends_of_listFiles h.wellFormed hc.wellFormed (hc.keeps.dirs.trans hk) h.named
    h.directory h.scripts
  exact hrest.mono (fun _ _ ⟨hf, hk, hwf⟩ => ⟨hc.frame.trans hf, hk.trans hc.keeps, hwf⟩)
    fun _ _ ⟨hf, hk, hwf⟩ => ⟨hc.frame.trans hf, hk.trans hc.keeps, hwf⟩

/-- The script module has been written, and nothing else has changed. -/
def Draft.ScriptPut (d : Draft) (setup : Setup) (fs fs' : FileSystem) : Prop :=
  PutsAt fs fs' (setup.tree.scriptModule d.modules.ns) d.modules.script.text

/-- The declaration module has been written, and nothing else has changed. -/
def Draft.DeclarationPut (d : Draft) (setup : Setup) (fs fs' : FileSystem) : Prop :=
  PutsAt fs fs' (setup.tree.declarationModule d.modules.ns) d.modules.declarations.text

/-- Both modules have been written, and some generated files are gone. -/
def Draft.BothPut (d : Draft) (setup : Setup) (work : Location) (fs fs' : FileSystem) : Prop :=
  ∃ g g', d.ScriptPut setup fs g ∧ d.DeclarationPut setup g g' ∧ Cleared g' fs' (d.modules.ns :: work)

/-- Publishing can stop in front of the script module, in front of the declaration module, or behind both. -/
theorem publish_ends (h : d.ListedAt setup work j.files) :
    Ends (fun r j' => r.1 = d.modules.ns ∧ d.BothPut setup work j.files j'.files)
      (fun e j' => j'.files = j.files ∨
        d.ScriptPut setup j.files j'.files ∧ (Path.parent? (setup.tree.declarationModule d.modules.ns) = none ∨
          ∃ cause, e = .output (.build (setup.tree.declarationModule d.modules.ns) cause)) ∨
        d.BothPut setup work j.files j'.files)
      (publish setup file d j) := by
  unfold publish
  refine ends_warnMissing.bind fun _ j₁ _ h₁ => ?_
  refine ends_warnMissing.bind fun _ j₂ _ h₂ => ?_
  have hstart : j₂.files = j.files := h₂.trans h₁
  rw [← hstart] at h ⊢
  refine (ends_write.mono (fun _ _ hp => hp) fun _ _ he => .inl he.1).bind fun _ j₃ _ hs => ?_
  have hwf₃ := hs.wellFormed h.wellFormed
  have hput : ∀ fs', fs' = j₃.files → d.ScriptPut setup j₂.files fs' := fun fs' e => e ▸ hs
  refine (ends_write.mono (fun _ _ hp => hp) fun _ _ he => .inr (.inl ⟨hput _ he.1, he.2⟩)).bind
    fun _ j₄ _ hd => ?_
  have hremoval := h.removal_ends (hd.wellFormed hwf₃) (hd.keepsDirs.trans hs.keepsDirs)
  rw [← bind_assoc]
  exact (hremoval.mono (fun _ _ hc => hc) fun _ _ hc => .inr (.inr ⟨_, _, hs, hd, hc⟩)).bind
    fun _ _ _ hc => ⟨rfl, _, _, hs, hd, hc⟩

/-- However publishing ends, nothing is removed but from the work directory. -/
theorem Draft.ListedAt.removed_inside (h : d.ListedAt setup work j.files) {x : Location}
    (hx : j.files.find? x ≠ none) :
    Ends (fun _ j' => j'.files.find? x = none → isBelow (d.modules.ns :: work) x = true)
      (fun _ j' => j'.files.find? x = none → isBelow (d.modules.ns :: work) x = true) (publish setup file d j) := by
  have hboth : ∀ fs', d.BothPut setup work j.files fs' → fs'.find? x = none →
      isBelow (d.modules.ns :: work) x = true := by
    rintro fs' ⟨g, g', hs, hd, hc⟩ hnone
    by_contra hb
    rw [hc.frame.find? x hb] at hnone
    exact hd.find?_ne_none (hs.find?_ne_none hx) hnone
  refine (publish_ends h).mono (fun _ _ hp => hboth _ hp.2) fun e j' he hnone => ?_
  rcases he with he | ⟨hs, -⟩ | hp
  · rw [he] at hnone
    exact absurd hnone hx
  · exact absurd hnone (hs.find?_ne_none hx)
  · exact hboth _ hp hnone

end

/-! ## Namespaces -/

/-- What a source declares is a text of word characters and dots, and a dotted name unless a dot stands at an end or next
to another. Unless it is one dot or two, it is the name of a directory in the scratch directory; where that is a
directory when the compiler is done, all generated files that are read stand below it, and nothing else is removed. -/
theorem declared_namespace_inside {s : Source} {ns : Namespace} (h : s.namespace? = .ok ns) :
    ((ns ≠ [] ∧ ∀ c ∈ ns, Idl.isNamespaceChar c = true) ∧ (IsDotted ns ↔ HasInnerDots ns)) ∧
    (ns ≠ ['.'] → ns ≠ ['.', '.'] →
      (∀ scratch, Path.names (Path.join scratch ns) = Path.names scratch ++ [ns]) ∧
      ∀ setup taken file j d j₁ work, draft setup taken file j = .ok d j₁ → d.modules.ns = ns →
        j₁.files.WellFormed → Reaches j₁.files setup.scratch work →
        j₁.files.find? (ns :: work) = some .directory →
          (∀ f ∈ d.declarationFiles ++ d.scriptFiles, IsFileBelow j₁.files (ns :: work) f) ∧
          ∀ x, j₁.files.find? x ≠ none →
            Ends (fun _ j₂ => j₂.files.find? x = none → isBelow (ns :: work) x = true)
              (fun _ j₂ => j₂.files.find? x = none → isBelow (ns :: work) x = true) (publish setup file d j₁)) := by
  obtain ⟨hne, hchars⟩ := isNamespaceChar_of_namespace? h
  refine ⟨⟨⟨hne, hchars⟩, isDotted_iff hne hchars⟩, fun hdot hdotDot => ?_⟩
  have hname := isName_of_isNamespaceChar hne hchars hdot hdotDot
  refine ⟨fun scratch => Path.names_join hname, ?_⟩
  rintro setup taken file j d j₁ work hdraft rfl hwf hscratch hd
  have hlisted := (draft_eq_ok hdraft).listedAt hwf hscratch hname hd
  exact ⟨fun f hf => hlisted.isFileBelow hf, fun x hx => hlisted.removed_inside hx⟩

def pairSetup : Setup :=
  ⟨pairSettings, writing pairPlan, ⟨pairSettings.output⟩, pairScratch, ⟨["idl".toList]⟩⟩

def pairWork : Location := ["s".toList, "t".toList]

/-- The generated script of a source with a dotted namespace. -/
theorem declared_namespace_inside_pair :
    ∃ d j₁, draft pairSetup [] "idl/a.thrift".toList ⟨pairStart, [], []⟩ = .ok d j₁ ∧
      d.declarationFiles ++ d.scriptFiles = ["t/s/p.a/a.js".toList] ∧
      IsFileBelow j₁.files ("p.a".toList :: pairWork) "t/s/p.a/a.js".toList ∧ IsDotted "p.a".toList := by
  have hns : (Source.ofText "idl/a.thrift".toList "namespace js p.a\n".toList).namespace? = .ok "p.a".toList := by
    decide +kernel
  have hrun : Ends (fun d j₁ => d.modules.ns = "p.a".toList ∧
        d.declarationFiles ++ d.scriptFiles = ["t/s/p.a/a.js".toList] ∧
        (∀ e ∈ j₁.files.entries, j₁.files.StandsInDirectory e.1) ∧
        j₁.files.stat pairScratch = .ok (pairWork, .directory) ∧
        j₁.files.find? ("p.a".toList :: pairWork) = some .directory)
      (fun _ _ => False) (draft pairSetup [] "idl/a.thrift".toList ⟨pairStart, [], []⟩) := by
    decide +kernel
  obtain ⟨d, j₁, hd, hdns, hfiles, hentries, hstat, hdir⟩ := hrun.exists_ok
  obtain ⟨⟨-, hdotted⟩, hinside⟩ := declared_namespace_inside hns
  obtain ⟨-, hvisit⟩ := hinside (by decide) (by decide)
  obtain ⟨hbelow, -⟩ := hvisit pairSetup _ _ _ d j₁ pairWork hd hdns (FileSystem.wellFormed_of_entries hentries)
    (FileSystem.stat_eq_directory_iff.1 hstat).2.2 hdir
  exact ⟨d, j₁, hd, hfiles, hbelow _ (by rw [hfiles]; exact List.mem_singleton_self _), hdotted.2 (by decide)⟩

/-- A source that declares two dots, and a script beside the place of the scratch directory. -/
def parentFiles : FileSystem :=
  small [["t"], ["idl"]] [(["a.thrift", "idl"], "namespace js ..\n"), (["other.js", "t"], "var other;")]

/-- Two dots are a namespace, although no dotted name, and a run whose source declares it reads and removes a script
beside its scratch directory. -/
theorem declared_namespace_outside :
    (Source.ofText "idl/a.thrift".toList "namespace js ..\n".toList).namespace? = .ok "..".toList ∧
      ¬IsDotted "..".toList ∧
      (runFrom (generate pairSettings (writing fun _ _ => []) pairScratch) parentFiles).1 =
        .ok ⟨["..".toList], none, 0⟩ ∧
      parentFiles.find? ["other.js".toList, "t".toList] = some (.file (.text "var other;".toList) false) ∧
      (runFrom (generate pairSettings (writing fun _ _ => []) pairScratch) parentFiles).2.files.find?
        ["other.js".toList, "t".toList] = none := by
  refine ⟨by decide +kernel, fun h => ?_, by decide +kernel, by decide, by decide +kernel⟩
  rw [isDotted_iff (by decide) (by decide)] at h
  revert h
  decide

end ThriftModules.Run
