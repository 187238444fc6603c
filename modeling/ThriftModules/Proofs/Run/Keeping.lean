import ThriftModules.Proofs.Run.Inside

/-!
# What a run has written, however it ends

* `Contained` : compilers that change nothing but what lies below their output directory, whether they succeed or not;
* `Kept` : the modules that stand in the output tree so far, and nothing else there;
* `Working` : such a state with the work directory of a source (`draft_ends`);
* `publish_kept` : publishing adds both modules, none of them, or the script module alone where the declaration module
  cannot be written;
* `processAll_kept` : what a run over some sources leaves, whether it succeeds or not.
-/

namespace ThriftModules.Run

set_option autoImplicit false

open Output (Tree HoldsAt Puts PutsAt dirNames)
open FileSystem (Frame Named isBelow isBelow_cons find?_put)
open Chain (Ends)

/-- A compiler that changes nothing but what lies below the output directory of its request, however it ends. -/
structure Contained (compiler : Compiler) : Prop where
  frame : ∀ {r : Request} {fs : FileSystem} {loc : Location}, fs.WellFormed →
    fs.stat r.outputDir = .ok (loc, .directory) →
      Ends (fun _ fs' => Frame fs fs' (isBelow loc · = true) ∧ fs'.WellFormed)
        (fun _ fs' => Frame fs fs' (isBelow loc · = true) ∧ fs'.WellFormed) (compiler r fs)

/-! ## States -/

/-- The state of a run that has written the given script modules and declaration modules, and no others. -/
structure Kept (setup : Setup) (start : FileSystem) (out : Location) (scripts declarations : List Modules)
    (fs : FileSystem) : Prop where
  wellFormed : fs.WellFormed
  frame : Frame start fs (setup.reserved start)
  scripts : HoldsAt fs ("js".toList :: out) (scripts.map Modules.scriptFile)
  declarations : HoldsAt fs ("ts".toList :: out) (declarations.map Modules.declarationFile)

section
variable {setup : Setup} {start fs fs' : FileSystem} {out work : Location} {scripts declarations done : List Modules}
  {m : Modules} {ns : Namespace}

theorem Ready.kept (hr : Ready setup start out work) : Kept setup start out [] [] start :=
  ⟨hr.wellFormed, Frame.refl start _, hr.between.scripts, hr.between.declarations⟩

/-- The modules outlast changes to the scratch directory and to the server's classes. -/
theorem Kept.of_frame (h : Kept setup start out scripts declarations fs) (hr : Ready setup start out work)
    (hf : Frame fs fs' fun x => isBelow work x = true ∨ isBelow ("java".toList :: out) x = true)
    (hwf : fs'.WellFormed) : Kept setup start out scripts declarations fs' := by
  have hsame : ∀ name ∈ dirNames, name ≠ "java".toList → ∀ x, isBelow (name :: out) x = true →
      fs'.find? x = fs.find? x := by
    intro name hname hne x hx
    apply hf.find? x
    rw [(hr.apart name hname x hx).2, FileSystem.not_isBelow_of_isBelow hne hx]
    simp
  refine ⟨hwf, h.frame.trans (hf.mono fun x hx => hr.reserved_iff.2 ?_), ?_, ?_⟩
  · exact hx.imp id fun hx => ⟨_, by decide, hx⟩
  · exact h.scripts.congr (hsame _ (by decide) (by decide))
  · exact h.declarations.congr (hsame _ (by decide) (by decide))

/-- A file put in a directory of the output tree is the only change, and none to the scratch directory. -/
theorem Kept.puts {name file text : Text} (h : Kept setup start out scripts declarations fs)
    (hr : Ready setup start out work) (hname : name ∈ dirNames) (hn : Path.IsName file)
    (hp : PutsAt fs fs' (Path.join (Path.join setup.tree.root name) file) text) :
    Puts fs fs' (file :: name :: out) (.file (.text text) false) ∧ Frame start fs' (setup.reserved start) ∧
      ∀ x, isBelow work x = true → fs'.find? x = fs.find? x := by
  have hputs := hp.join (hr.dir_of_keeps hname (hr.keepsDirs h.frame)).2 hn
  refine ⟨hputs, h.frame.trans (hputs.frame.mono ?_), fun x hx => ?_⟩
  · rintro x rfl
    exact hr.reserved_iff.2 (.inr ⟨name, hname, isBelow_cons file _⟩)
  · rw [hputs.find?, if_neg]
    rintro rfl
    have hout := hr.not_isBelow_out hname hx
    rw [isBelow_cons] at hout
    cases hout

theorem map_append_ne {suffix : Text} {ms : List Modules} (hnew : m.ns ∉ ms.map Modules.ns) :
    ∀ other ∈ ms, other.ns ++ suffix ≠ m.ns ++ suffix := fun other hm e =>
  hnew (List.mem_map.2 ⟨other, hm, List.append_cancel_right e⟩)

theorem Kept.scriptPut (h : Kept setup start out scripts declarations fs) (hr : Ready setup start out work)
    (hn : Path.IsName (m.ns ++ Output.scriptSuffix)) (hnew : m.ns ∉ scripts.map Modules.ns)
    (hp : PutsAt fs fs' (setup.tree.scriptModule m.ns) m.script.text) :
    Kept setup start out (scripts ++ [m]) declarations fs' := by
  obtain ⟨hputs, hframe, -⟩ := h.puts hr (by decide : "js".toList ∈ dirNames) hn hp
  refine ⟨hp.wellFormed h.wellFormed, hframe, ?_, ?_⟩
  · rw [List.map_append]
    refine h.scripts.snoc (fun x _ => hputs.find? x) fun f hf => ?_
    obtain ⟨other, hm, rfl⟩ := List.mem_map.1 hf
    exact map_append_ne hnew other hm
  · refine h.declarations.congr fun x hx => ?_
    rw [hputs.find?, if_neg (FileSystem.ne_cons_of_isBelow (by decide) hx _)]

theorem Kept.declarationPut (h : Kept setup start out scripts declarations fs) (hr : Ready setup start out work)
    (hn : Path.IsName (m.ns ++ Output.declarationSuffix)) (hnew : m.ns ∉ declarations.map Modules.ns)
    (hp : PutsAt fs fs' (setup.tree.declarationModule m.ns) m.declarations.text) :
    Kept setup start out scripts (declarations ++ [m]) fs' := by
  obtain ⟨hputs, hframe, -⟩ := h.puts hr (by decide : "ts".toList ∈ dirNames) hn hp
  refine ⟨hp.wellFormed h.wellFormed, hframe, ?_, ?_⟩
  · refine h.scripts.congr fun x hx => ?_
    rw [hputs.find?, if_neg (FileSystem.ne_cons_of_isBelow (by decide) hx _)]
  · rw [List.map_append]
    refine h.declarations.snoc (fun x _ => hputs.find? x) fun f hf => ?_
    obtain ⟨other, hm, rfl⟩ := List.mem_map.1 hf
    exact map_append_ne hnew other hm

/-! ## A draft -/

/-- The state of a run, with the modules of the sources in `done`, that works on the namespace `ns`. -/
structure Working (setup : Setup) (start : FileSystem) (out work : Location) (done : List Modules) (ns : Namespace)
    (fs : FileSystem) : Prop where
  kept : Kept setup start out done done fs
  free : ∀ n, n ∉ done.map Modules.ns → n ≠ ns → fs.find? (n :: work) = none
  named : Named fs (Path.join setup.scratch ns) work ns
  directory : fs.find? (ns :: work) = some .directory

theorem Working.stat (h : Working setup start out work done ns fs) :
    fs.stat (Path.join setup.scratch ns) = .ok (ns :: work, .directory) :=
  (h.named.reaches h.directory).stat h.named.nonempty h.named.short

/-- A place below the server's classes is no entry of the scratch directory. -/
theorem Ready.not_isBelow_java (hr : Ready setup start out work) (n : Namespace) :
    isBelow ("java".toList :: out) (n :: work) = false := hr.not_isBelow_out (by decide) (isBelow_cons n work)

/-- A compilation for the server or for the client leaves the run working on the same namespace. -/
theorem Working.of_frame (h : Working setup start out work done ns fs) (hr : Ready setup start out work)
    (hf : Frame fs fs' fun x => isBelow (ns :: work) x = true ∨ isBelow ("java".toList :: out) x = true)
    (hwf : fs'.WellFormed) : Working setup start out work done ns fs' := by
  have hkept : Kept setup start out done done fs' := h.kept.of_frame hr (hf.mono fun x hx =>
    hx.imp (FileSystem.isBelow_trans (isBelow_cons ns work)) id) hwf
  have hentry : ∀ n, fs'.find? (n :: work) = fs.find? (n :: work) := by
    intro n
    apply hf.find?
    rw [hr.not_isBelow_java n]
    rintro (hb | hb)
    · exact FileSystem.not_isBelow_cons_cons _ _ _ hb
    · cases hb
  have hshort : OsText.size ns ≤ fs'.nameLimit := hf.nameLimit ▸ h.named.lookedUp.short
  refine ⟨hkept, fun n hn hne => ?_, ?_, ?_⟩
  · rw [hentry, h.free n hn hne]
  · exact (hr.reaches.keepsDirs (hr.keepsDirs hkept.frame)).named h.named.isName h.named.short hshort
  · rw [hentry, h.directory]

theorem Kept.makeDirs_ends (h : Kept setup start out done done fs) (hr : Ready setup start out work)
    (hfree : ∀ n, n ∉ done.map Modules.ns → fs.find? (n :: work) = none) (hn : Path.IsName ns)
    (hnew : ns ∉ done.map Modules.ns) :
    Ends (fun _ fs' => Working setup start out work done ns fs') (fun _ fs' => fs' = fs)
      (FileSystem.makeDirs (Path.join setup.scratch ns) fs) := by
  have hreach := hr.reaches.keepsDirs (hr.keepsDirs h.frame)
  refine Chain.ends_iff.2 ⟨fun _ fs' hm => ?_, fun e fs' hm =>
    FileSystem.makeDirs_join_eq_error hreach hn (hfree ns hnew) hm⟩
  obtain ⟨hnamed, rfl⟩ := FileSystem.makeDirs_join_eq_ok hreach hn (hfree ns hnew) hm
  have hshort : OsText.size ns ≤ start.nameLimit := h.frame.nameLimit ▸ hnamed.lookedUp.short
  have hdir := hr.hasWorkDir_put h.wellFormed h.frame (hfree ns hnew) hn hnamed.short hshort
  have hput : Frame fs (fs.put (ns :: work) .directory) (· = ns :: work) := Frame.put fs (List.cons_ne_nil _ _) _
  refine ⟨h.of_frame hr (hput.mono fun x hx => .inl (hx ▸ isBelow_cons ns work)) hdir.wellFormed, fun n hn' hne => ?_,
    hdir.named, hdir.directory⟩
  rw [hput.find? _ fun e => hne (List.cons.inj e).1, hfree n hn']

/-- The compiler leaves the run working on the same namespace, however it ends. -/
theorem Working.compile_ends {file outputDir : Path} {target : Target} {options : Text} {loc : Location} {j : Journal}
    (h : Working setup start out work done ns j.files) (hr : Ready setup start out work)
    (hc : Contained setup.compiler) (hs : j.files.stat outputDir = .ok (loc, .directory))
    (hloc : loc = ns :: work ∨ loc = "java".toList :: out) :
    Ends (fun _ j' => Working setup start out work done ns j'.files)
      (fun _ j' => Working setup start out work done ns j'.files)
      (compile setup file outputDir target options j) := by
  have hinside : ∀ x, isBelow loc x = true →
      isBelow (ns :: work) x = true ∨ isBelow ("java".toList :: out) x = true := by
    rcases hloc with rfl | rfl
    · exact fun _ => .inl
    · exact fun _ => .inr
  refine ends_compile ((hc.frame h.kept.wellFormed hs).mono ?_ ?_)
  · exact fun _ fs' hf => h.of_frame hr (hf.1.mono hinside) hf.2
  · exact fun _ fs' hf => h.of_frame hr (hf.1.mono hinside) hf.2

variable {file : Path} {j : Journal}

/-- A draft leaves the modules of the sources in front of it as they are, however it ends. -/
theorem draft_ends (h : Kept setup start out done done j.files) (hr : Ready setup start out work)
    (hc : Contained setup.compiler) (hfree : ∀ n, n ∉ done.map Modules.ns → j.files.find? (n :: work) = none)
    (hname : ∀ source ns, Idl.readSource j.files file = .ok source → source.ownNamespace source.identifier = .ok ns →
      Path.IsName ns) :
    Ends (fun d j' => Working setup start out work done d.modules.ns j'.files)
      (fun _ j' => Kept setup start out done done j'.files) (draft setup (done.map Modules.ns) file j) := by
  unfold draft
  refine Ends.bind (P := fun source j' => Idl.readSource j.files file = .ok source ∧ j' = j)
    (ends_look (fun source hread => ⟨hread, rfl⟩) fun _ _ => h) ?_
  rintro source _ - ⟨hread, rfl⟩
  refine Ends.bind (P := fun ns j'' => source.ownNamespace source.identifier = .ok ns ∧ j'' = _)
    (ends_orStop (fun ns hns => ⟨hns, rfl⟩) fun _ _ => h) ?_
  rintro ns j' - ⟨hns, rfl⟩
  dsimp only
  split
  · exact h
  next hnew =>
  rw [List.contains_iff_mem] at hnew
  refine Ends.bind (P := fun _ j'' => j'' = j') (ends_look (fun _ _ => rfl) fun _ _ => h) ?_
  rintro includes j' - rfl
  have hmake := h.makeDirs_ends hr hfree (hname source ns hread hns) hnew
  refine Ends.bind (P := fun _ j'' => Working setup start out work done ns j''.files)
    (ends_onDisk (hmake.mono (fun _ _ hw => hw) fun _ fs' hfs => by rw [hfs]; exact h)) ?_
  intro _ j₁ _ h₁
  have hjava := hr.stat_dir (by decide : "java".toList ∈ dirNames) (hr.keepsDirs h₁.kept.frame)
  refine ((h₁.compile_ends hr hc hjava (.inr rfl)).mono (fun _ _ hw => hw) fun _ _ hw => hw.kept).bind ?_
  intro _ j₂ _ h₂
  refine ((h₂.compile_ends hr hc h₂.stat (.inl rfl)).mono (fun _ _ hw => hw) fun _ _ hw => hw.kept).bind ?_
  intro _ j₃ _ h₃
  refine Ends.bind (P := fun _ j' => Working setup start out work done ns j'.files)
    (ends_collect (fun _ _ _ => h₃) fun _ => h₃.kept) fun _ j₄ _ h₄ => ?_
  refine Ends.bind (P := fun _ j' => Working setup start out work done ns j'.files)
    (ends_collect (fun _ _ _ => h₄) fun _ => h₄.kept) ?_
  intro _ j₅ _ h₅
  exact h₅

end

/-! ## A step -/

section
variable {setup : Setup} {start : FileSystem} {out work : Location} {done : List Modules} {file : Path} {j : Journal}
  {d : Draft}

/-- Where publishing ends, both modules stand in the output tree, or none of them, or the script module alone because
the declaration module could not be written. -/
theorem publish_kept (h : Working setup start out work done d.modules.ns j.files) (hr : Ready setup start out work)
    (hl : d.ListedAt setup work j.files) (hnew : d.modules.ns ∉ done.map Modules.ns) :
    Ends (fun r j' => r.1 = d.modules.ns ∧ Kept setup start out (done ++ [d.modules]) (done ++ [d.modules]) j'.files ∧
        ∀ n, n ∉ done.map Modules.ns → n ≠ d.modules.ns → j'.files.find? (n :: work) = none)
      (fun e j' => Kept setup start out done done j'.files ∨
        Kept setup start out (done ++ [d.modules]) (done ++ [d.modules]) j'.files ∨
        Kept setup start out (done ++ [d.modules]) done j'.files ∧
          ∃ cause, e = .output (.build (setup.tree.declarationModule d.modules.ns) cause))
      (publish setup file d j) := by
  have hslash := hl.named.isName.noSlash
  have hjs : Path.IsName (d.modules.ns ++ Output.scriptSuffix) := Path.isName_append hslash (by decide) (by decide)
  have hts : Path.IsName (d.modules.ns ++ Output.declarationSuffix) :=
    Path.isName_append hslash (by decide) (by decide)
  have hscript : ∀ {fs'}, d.ScriptPut setup j.files fs' →
      Kept setup start out (done ++ [d.modules]) done fs' := fun hp => h.kept.scriptPut hr hjs hnew hp
  have hboth : ∀ {fs'}, d.BothPut setup work j.files fs' →
      Kept setup start out (done ++ [d.modules]) (done ++ [d.modules]) fs' ∧
        ∀ n, n ∉ done.map Modules.ns → n ≠ d.modules.ns → fs'.find? (n :: work) = none := by
    rintro fs' ⟨g, g', hs, hd, hc⟩
    have hkept := (hscript hs).declarationPut hr hts hnew hd
    refine ⟨hkept.of_frame hr (hc.frame.mono fun x hx => .inl ?_) hc.wellFormed, fun n hn hne => ?_⟩
    · exact FileSystem.isBelow_trans (isBelow_cons _ work) hx
    · have hwork : isBelow work (n :: work) = true := isBelow_cons n work
      rw [hc.frame.find?, ((hscript hs).puts hr (by decide) hts hd).2.2 _ hwork,
        (h.kept.puts hr (by decide) hjs hs).2.2 _ hwork, h.free n hn hne]
      exact FileSystem.not_isBelow_cons_cons _ _ _
  refine (publish_ends hl).mono (fun r j' hp => ⟨hp.1, hboth hp.2⟩) fun e j' he => ?_
  rcases he with he | ⟨hs, hnone | hcause⟩ | hp
  · rw [he]
    exact .inl h.kept
  · have hnames := Path.names_of_parent?_eq_none hnone
    rw [Output.Tree.declarationModule, Path.names_join hts] at hnames
    simp at hnames
  · exact .inr (.inr ⟨hscript hs, hcause⟩)
  · exact .inr (.inl (hboth hp).1)

end

/-! ## A run -/

/-- The modules are those that the source of the visit comes to. -/
def Visit.comesTo (v : Visit) (m : Modules) : Prop := ∃ d, v.drafts d ∧ d.modules = m

/-- Both modules of some visits stand in the output tree, and at most one script module alone, of a visit that failed
because its declaration module could not be written. -/
def Leaves (setup : Setup) (start : FileSystem) (out : Location) (vs : List Visit) (failed : RunError → Prop)
    (fs : FileSystem) : Prop :=
  ∃ done : List Modules, (∀ m ∈ done, ∃ v ∈ vs, v.comesTo m) ∧
    (Kept setup start out done done fs ∨ ∃ m cause, (∃ v ∈ vs, v.comesTo m) ∧ m.ns ∉ done.map Modules.ns ∧
      Kept setup start out (done ++ [m]) done fs ∧ failed (.output (.build (setup.tree.declarationModule m.ns) cause)))

theorem Leaves.frame {setup : Setup} {start fs : FileSystem} {out : Location} {vs : List Visit}
    {failed : RunError → Prop} (h : Leaves setup start out vs failed fs) : Frame start fs (setup.reserved start) := by
  obtain ⟨done, -, hk | ⟨m, cause, -, -, hk, -⟩⟩ := h <;> exact hk.frame

/-- The state of a run between two visits: both modules of the visits so far stand in the output tree, and the work
directories of all other namespaces are free. -/
def Proceeds (setup : Setup) (start : FileSystem) (out work : Location) (vs : List Visit) (taken : List Namespace)
    (fs : FileSystem) : Prop :=
  ∃ done : List Modules, done.map Modules.ns = taken ∧ (∀ m ∈ done, ∃ v ∈ vs, v.comesTo m) ∧
    Kept setup start out done done fs ∧ ∀ n, n ∉ taken → fs.find? (n :: work) = none

section
variable {setup : Setup} {start : FileSystem} {out work : Location} {vs : List Visit}

/-- A visit leads from one such state to the next, or leaves what may be left where a run fails. -/
theorem visit_ends {v : Visit} (hv : v ∈ vs) (hr : Ready v.setup start out work) (hc : Contained v.setup.compiler)
    (hname : ∀ ns, v.names ns → Path.IsName ns) (h : Proceeds v.setup start out work vs v.taken v.journal.files) :
    Ends (fun r j' => Proceeds v.setup start out work vs (v.taken ++ [r.1]) j'.files)
      (fun e j' => Leaves v.setup start out vs (e = ·) j'.files)
      (processSource v.setup v.taken v.file v.journal) := by
  obtain ⟨done, hdone, hcame, hkept, hfree⟩ := h
  rw [← hdone] at hfree
  rw [processSource_eq]
  have hdraft := draft_ends hkept hr hc hfree fun source ns hread hns => hname ns ⟨source, hread, hns⟩
  rw [hdone] at hdraft
  refine (hdraft.mono (fun _ _ hw => hw) fun _ _ hk => ⟨done, hcame, .inl hk⟩).bind fun d j₁ hd hw => ?_
  have hdrafted := draft_eq_ok hd
  have hreach := hr.reaches.keepsDirs (hr.keepsDirs hw.kept.frame)
  have hl := hdrafted.listedAt hw.kept.wellFormed hreach hw.named.isName hw.directory
  have hnew : d.modules.ns ∉ done.map Modules.ns := hdone ▸ hdrafted.new
  have hcame' : ∃ v ∈ vs, v.comesTo d.modules := ⟨v, hv, d, ⟨j₁, hd⟩, rfl⟩
  have hall : ∀ m ∈ done ++ [d.modules], ∃ v ∈ vs, v.comesTo m := by
    intro m hm
    rcases List.mem_append.1 hm with hm | hm
    · exact hcame m hm
    · exact List.mem_singleton.1 hm ▸ hcame'
  refine (publish_kept hw hr hl hnew).mono ?_ ?_
  · rintro ⟨_, missing⟩ j' ⟨rfl, hboth, hfree'⟩
    refine ⟨done ++ [d.modules], by rw [List.map_append, hdone]; rfl, hall, hboth, fun n hn => ?_⟩
    rw [← hdone, List.mem_append, not_or, List.mem_singleton] at hn
    exact hfree' n hn.1 hn.2
  · rintro e j' (hk | hk | ⟨hk, cause, rfl⟩)
    · exact ⟨done, hcame, .inl hk⟩
    · exact ⟨done ++ [d.modules], hall, .inl hk⟩
    · exact ⟨done, hcame, .inr ⟨d.modules, cause, hcame', hnew, hk, rfl⟩⟩

/-- What a run over some sources leaves, however it ends. -/
theorem processAll_leaves {files : List Path} {j : Journal} (hr : Ready setup j.files out work)
    (hc : Contained setup.compiler) (hnames : ∀ v ∈ visits setup [] files j, ∀ ns, v.names ns → Path.IsName ns) :
    Ends (fun _ j' => Leaves setup j.files out (visits setup [] files j) (fun _ => False) j'.files)
      (fun e j' => Leaves setup j.files out (visits setup [] files j) (e = ·) j'.files)
      (processAll setup ⟨[], none, 0⟩ files j) := by
  have hrun : Ends (fun s j' => Proceeds setup j.files out work (visits setup [] files j) s.modules j'.files)
      (fun e j' => Leaves setup j.files out (visits setup [] files j) (e = ·) j'.files)
      (processAll setup ⟨[], none, 0⟩ files j) := by
    refine processAll_ends (P := fun taken j' => Proceeds setup j.files out work (visits setup [] files j) taken j'.files)
      (fun v hv hP => ?_) ⟨[], rfl, by simp, hr.kept, fun n _ => hr.empty _ (isBelow_cons n work)⟩
    obtain rfl := setup_of_mem_visits hv
    exact visit_ends hv hr hc (hnames v hv) hP
  refine hrun.mono (fun s j' hp => ?_) fun _ _ hl => hl
  obtain ⟨done, -, hcame, hkept, -⟩ := hp
  exact ⟨done, hcame, .inl hkept⟩

end

end ThriftModules.Run
