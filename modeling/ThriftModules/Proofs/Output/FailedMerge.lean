import ThriftModules.Proofs.Output.Merging

/-!
# Merges that fail

* `FileCalls` : the file operations that a merge calls, which may fail where nothing in the file system makes them
  (`FileCalls.Faithful`);
* `Tree.mergeThrough` : a merge through such calls (`mergeScripts_eq_mergeThrough`);
* `removeThrough_cases` : removals end as they should, or behind some of the files;
* `Tree.FailedMerge` : what a merge has removed when it fails with an error (`exists_failedMerge`);
* `mergeScripts_failed` : so it keeps the scripts exactly if each removed one is part of a merged module that is left.
-/

namespace ThriftModules.Output

set_option autoImplicit false

open FileSystem (Disk DiskM inspect isBelow_cons orFail)

/-! ## Calls that may fail -/

/-- The operations that a merge calls. -/
structure FileCalls where
  list : Path → Text → DiskM OutputError (List Path)
  read : List Path → DiskM OutputError (List Text)
  remove : Path → Disk Unit
  write : Path → Text → DiskM OutputError Unit

def FileCalls.plain : FileCalls where
  list dir suffix := inspect (listFiles · dir suffix)
  read files := inspect (readFiles · files)
  remove := FileSystem.removeFile
  write := writeAtomically

/-- `y` does what `x` does, or it fails with one of the failures and changes nothing. -/
def DoesOrFails {ε α : Type} (failure : ε → Prop) (x y : DiskM ε α) : Prop :=
  ∀ fs, y fs = x fs ∨ ∃ e, failure e ∧ y fs = .error e fs

/-- Each call does what the plain one does, or it fails, for whatever reason, and changes nothing. -/
structure FileCalls.Faithful (c : FileCalls) : Prop where
  list : ∀ dir suffix, DoesOrFails (fun e => ∃ cause, e = .list dir cause) (plain.list dir suffix) (c.list dir suffix)
  read : ∀ files, DoesOrFails (fun e => ∃ file cause, e = .read file cause) (plain.read files) (c.read files)
  remove : ∀ p, DoesOrFails (fun _ => True) (plain.remove p) (c.remove p)
  write : ∀ p text, DoesOrFails (fun e => ∃ cause, e = .build p cause) (plain.write p text) (c.write p text)

theorem FileCalls.plain_faithful : plain.Faithful :=
  ⟨fun _ _ _ => .inl rfl, fun _ _ => .inl rfl, fun _ _ => .inl rfl, fun _ _ _ => .inl rfl⟩

def removeThrough (remove : Path → Disk Unit) : List Path → DiskM OutputError Unit
  | [] => pure ()
  | file :: rest => do
    orFail (.remove file) (remove file)
    removeThrough remove rest

def Tree.mergeThrough (c : FileCalls) (tree : Tree) : DiskM OutputError Path := do
  let modules ← c.list tree.scriptDir scriptSuffix
  let bodies ← c.read modules
  removeThrough c.remove modules
  c.write tree.mergedPath (Tree.mergedText bodies)
  return tree.mergedPath

theorem removeFiles_eq_removeThrough (files : List Path) :
    removeFiles files = removeThrough FileSystem.removeFile files := by
  induction files with
  | nil => rfl
  | cons file rest ih => rw [removeFiles, removeThrough, ih]

theorem mergeScripts_eq_mergeThrough (tree : Tree) : tree.mergeScripts = tree.mergeThrough .plain := by
  unfold Tree.mergeScripts
  simp only [removeFiles_eq_removeThrough]
  rfl

section
variable {fs fs' g : FileSystem} {tree : Tree} {path : Path} {dir : Location} {suffix : Text} {e : OutputError}
  {c : FileCalls}

theorem listFiles_eq_error (h : listFiles fs path suffix = .error e) : ∃ cause, e = .list path cause := by
  unfold listFiles at h
  split at h <;> cases h
  exact ⟨_, rfl⟩

theorem readFiles_eq_error {paths : List Path} (h : readFiles fs paths = .error e) :
    ∃ file cause, e = .read file cause := by
  obtain ⟨-, file, -, -, -, hfile⟩ := Chain.mapM_eq_error.1 h
  split at hfile <;> cases hfile
  exact ⟨file, _, rfl⟩

theorem DoesOrFails.ok {ε α : Type} {failure : ε → Prop} {x y : DiskM ε α} {a : α} (h : DoesOrFails failure x y)
    (hy : y fs = .ok a fs') : x fs = .ok a fs' := by
  rcases h fs with heq | ⟨e, -, heq⟩
  · rw [← heq, hy]
  · rw [hy] at heq
    cases heq

theorem DoesOrFails.error {ε α : Type} {failure : ε → Prop} {x y : DiskM ε α} {e : ε} (h : DoesOrFails failure x y)
    (hx : ∀ e fs', x fs = .error e fs' → failure e ∧ fs' = fs) (hy : y fs = .error e fs') : failure e ∧ fs' = fs := by
  rcases h fs with heq | ⟨e', he', heq⟩
  · exact hx e fs' (heq ▸ hy)
  · rw [hy] at heq
    cases heq
    exact ⟨he', rfl⟩

/-- A look at the file system that may fail answers what is there, and changes nothing. -/
theorem DoesOrFails.look_eq_ok {ε α : Type} {failure : ε → Prop} {look : FileSystem → Except ε α} {y : DiskM ε α} {a : α}
    (h : DoesOrFails failure (inspect look) y) (hy : y fs = .ok a fs') : look fs = .ok a ∧ fs' = fs :=
  FileSystem.inspect_eq_ok.1 (h.ok hy)

theorem DoesOrFails.look_eq_error {ε α : Type} {failure : ε → Prop} {look : FileSystem → Except ε α} {y : DiskM ε α}
    {e : ε} (h : DoesOrFails failure (inspect look) y) (hlook : ∀ e, look fs = .error e → failure e)
    (hy : y fs = .error e fs') : failure e ∧ fs' = fs := by
  refine h.error (fun e fs' hx => ?_) hy
  obtain ⟨hx, rfl⟩ := FileSystem.inspect_eq_error.1 hx
  exact ⟨hlook e hx, rfl⟩

theorem FileCalls.Faithful.write_eq_error (hc : c.Faithful) {text : Text} (hparent : Path.parent? path ≠ none)
    (h : c.write path text fs = .error e fs') : (∃ cause, e = .build path cause) ∧ fs' = fs := by
  refine (hc.write path text).error (fun e fs' hw => ?_) h
  obtain ⟨hfs, hnone | hcause⟩ := writeAtomically_eq_error hw
  · exact absurd hnone hparent
  · exact ⟨hcause, hfs⟩

theorem parent?_mergedPath : Path.parent? tree.mergedPath ≠ none := by
  intro h
  have hnames := Path.names_of_parent?_eq_none h
  rw [Tree.mergedPath, Path.names_join isName_mergedName] at hnames
  simp at hnames

/-! ## Where a merge stops -/

/-- Where files can be removed, the removals end as they should, or some of the first ones are removed when one fails. -/
theorem removeThrough_cases {remove : Path → Disk Unit} (h : ∀ p, DoesOrFails (fun _ => True) (FileSystem.removeFile p)
    (remove p)) {paths : List Path} (hok : removeFiles paths fs = .ok () g) :
    removeThrough remove paths fs = .ok () g ∨
      ∃ front file back cause g', paths = front ++ file :: back ∧ removeFiles front fs = .ok () g' ∧
        removeThrough remove paths fs = .error (.remove file cause) g' := by
  induction paths generalizing fs with
  | nil => exact .inl hok
  | cons file rest ih =>
    obtain ⟨_, fs₁, hfirst, hrest⟩ := Chain.run_bind_eq_ok.1 hok
    have hfirst := orFail_eq_ok.1 hfirst
    rcases h file fs with heq | ⟨cause, -, heq⟩
    · rw [hfirst] at heq
      rcases ih hrest with hall | ⟨front, stopped, back, cause, g', rfl, hfront, hstop⟩
      · exact .inl (Chain.run_bind_eq_ok.2 ⟨(), fs₁, orFail_eq_ok.2 heq, hall⟩)
      · refine .inr ⟨file :: front, stopped, back, cause, g', rfl, ?_, ?_⟩
        · exact Chain.run_bind_eq_ok.2 ⟨(), fs₁, orFail_eq_ok.2 hfirst, hfront⟩
        · exact Chain.run_bind_eq_error.2 (.inr ⟨(), fs₁, orFail_eq_ok.2 heq, hstop⟩)
    · refine .inr ⟨[], file, rest, cause, fs, rfl, rfl, Chain.run_bind_eq_error.2 (.inl ?_)⟩
      unfold orFail
      rw [heq]

/-- What a merge has removed when it fails with an error: nothing when it lists or reads, the scripts in front of the one
that could not be removed, and all when the merged module could not be written. -/
inductive Tree.FailedMerge (tree : Tree) (fs : FileSystem) : OutputError → (Location → Prop) → Prop
  | list {cause : FileSystem.WalkError} : FailedMerge tree fs (.list tree.scriptDir cause) fun _ => False
  | read {file : Path} {cause : ReadError} : FailedMerge tree fs (.read file cause) fun _ => False
  | remove {dir : Location} {front back : List (List OsText × Text)} {file : List OsText × Text} {cause : OsError}
      (hdir : fs.stat tree.scriptDir = .ok (dir, .directory))
      (hlists : Lists fs scriptSuffix dir (front ++ file :: back)) :
      FailedMerge tree fs (.remove (file.1.foldl Path.join tree.scriptDir) cause)
        fun x => ∃ f ∈ front, x = f.1.reverse ++ dir
  | build {cause : OsError} : FailedMerge tree fs (.build tree.mergedPath cause) (tree.IsScript fs)

theorem Tree.FailedMerge.isScript {gone : Location → Prop} (h : tree.FailedMerge fs e gone) {x : Location}
    (hx : gone x) : tree.IsScript fs x := by
  cases h with
  | list => exact hx.elim
  | read => exact hx.elim
  | remove hdir hlists =>
    obtain ⟨f, hf, rfl⟩ := hx
    exact (isScript_iff hdir).2 ((hlists.listed _).2 ⟨f, List.mem_append_left _ hf, rfl⟩)
  | build => exact hx

/-- The scripts of a tree that were listed and read are removed, or some of the first ones are when a removal fails. -/
theorem removeThrough_scripts (hc : c.Faithful) {paths : List Path} {texts : List Text} (hwf : fs.WellFormed)
    (hl : listFiles fs tree.scriptDir scriptSuffix = .ok paths) (hr : readFiles fs paths = .ok texts) :
    Chain.Ends (fun _ g => Erased fs g (tree.IsScript fs))
      (fun e g => ∃ gone, tree.FailedMerge fs e gone ∧ Erased fs g gone) (removeThrough c.remove paths fs) := by
  obtain ⟨g, hall, herased, -⟩ := removeFiles_scripts hwf hl hr
  rcases removeThrough_cases hc.remove hall with hok | ⟨front, file, back, cause, g', rfl, hfront, hstop⟩
  · rw [hok]
    exact herased
  rw [hstop]
  by_cases hdir : ∃ dir, fs.stat tree.scriptDir = .ok (dir, .directory)
  · obtain ⟨dir, hs⟩ := hdir
    obtain ⟨files, hlists, hpaths, -, hshort⟩ := lists_of_read hwf hs hl hr
    obtain ⟨first, rest, rfl, rfl, hrest⟩ := List.map_eq_append_iff.1 hpaths.symm
    obtain ⟨stopped, last, rfl, rfl, -⟩ := List.map_eq_cons_iff.1 hrest
    obtain ⟨g₁, hfirst, herased₁, -⟩ := hlists.exists_front_removed hwf (FileSystem.stat_eq_directory_iff.1 hs).2.2
      (fun _ _ => rfl) fun f hf => hshort f (List.mem_append_left _ hf)
    rw [hfront] at hfirst
    cases hfirst
    exact ⟨_, .remove hs hlists, herased₁⟩
  · have hnil := listFiles_scripts_eq_nil (fun dir hs => hdir ⟨dir, hs⟩) hl
    simp at hnil

/-- A merge that fails has removed what its error tells, and has changed nothing else. -/
theorem exists_failedMerge (hwf : fs.WellFormed) (hc : c.Faithful) (h : tree.mergeThrough c fs = .error e fs') :
    ∃ gone, tree.FailedMerge fs e gone ∧ Erased fs fs' gone := by
  have hnone : Erased fs fs fun _ => False := ⟨FileSystem.Frame.refl fs _, fun _ => False.elim⟩
  unfold Tree.mergeThrough at h
  rcases Chain.run_bind_eq_error.1 h with h₁ | ⟨paths, _, h₁, r₁⟩
  · obtain ⟨⟨cause, rfl⟩, rfl⟩ := (hc.list _ _).look_eq_error (fun _ => listFiles_eq_error) h₁
    exact ⟨_, .list, hnone⟩
  obtain ⟨hl, rfl⟩ := (hc.list _ _).look_eq_ok h₁
  rcases Chain.run_bind_eq_error.1 r₁ with h₂ | ⟨texts, _, h₂, r₂⟩
  · obtain ⟨⟨file, cause, rfl⟩, rfl⟩ := (hc.read _).look_eq_error (fun _ => readFiles_eq_error) h₂
    exact ⟨_, .read, hnone⟩
  obtain ⟨hr, rfl⟩ := (hc.read _).look_eq_ok h₂
  have hends := removeThrough_scripts hc hwf hl hr
  rcases Chain.run_bind_eq_error.1 r₂ with h₃ | ⟨_, g, h₃, r₃⟩
  · exact hends.error h₃
  rcases Chain.run_bind_eq_error.1 r₃ with h₄ | ⟨_, _, -, r₄⟩
  · obtain ⟨⟨cause, rfl⟩, rfl⟩ := hc.write_eq_error parent?_mergedPath h₄
    exact ⟨_, .build, hends.ok h₃⟩
  · cases r₄

/-! ## What a failed merge keeps -/

/-- The text of the script at `x` in `fs` is part of the merged module in `fs'`. -/
def Tree.IsMerged (tree : Tree) (fs fs' : FileSystem) (x : Location) : Prop :=
  ∃ dir text merged executable executable', fs.stat tree.scriptDir = .ok (dir, .directory) ∧
    fs.find? x = some (.file (.text text) executable) ∧
    fs'.find? (mergedName :: dir) = some (.file (.text merged) executable') ∧ text <:+: merged

/-- The content of every script of the tree in `fs` is still there in `fs'`, in its own file or as part of the merged
module. -/
def Tree.KeepsScripts (tree : Tree) (fs fs' : FileSystem) : Prop :=
  ∀ x, tree.IsScript fs x → (∃ content executable executable', fs.find? x = some (.file content executable) ∧
    fs'.find? x = some (.file content executable')) ∨ tree.IsMerged fs fs' x

theorem keepsScripts_iff {gone : Location → Prop} (h : Erased fs fs' gone)
    (hgone : ∀ x, gone x → tree.IsScript fs x) : tree.KeepsScripts fs fs' ↔ ∀ x, gone x → tree.IsMerged fs fs' x := by
  constructor
  · intro hkeeps x hx
    refine (hkeeps x (hgone x hx)).resolve_left ?_
    rintro ⟨content, -, executable, -, he⟩
    rw [h.gone x hx] at he
    cases he
  · intro hmerged x hx
    by_cases hg : gone x
    · exact .inr (hmerged x hg)
    · obtain ⟨-, -, -, -, -, content, executable, -, -, he⟩ := hx
      exact .inl ⟨content, executable, executable, he, by rw [h.frame.find? x hg, he]⟩

/-- Where all scripts are gone, so is a merged module that was there. -/
theorem not_isMerged (h : Erased fs fs' (tree.IsScript fs)) {x : Location} : ¬tree.IsMerged fs fs' x := by
  rintro ⟨dir, text, merged, -, executable, hs, -, hmerged, -⟩
  have hscript : tree.IsScript fs (mergedName :: dir) :=
    ⟨dir, hs, isBelow_cons _ _, _, _, _, _, rfl, by decide, h.keeps.find? _ _ hmerged⟩
  rw [h.gone _ hscript] at hmerged
  cases hmerged

/-- A merge that fails has removed what its error tells and has changed nothing else. So it keeps the scripts of the tree
exactly if the text of each removed one is part of a merged module that is left, and if the merged module could not be
written, exactly if there were none. -/
theorem mergeScripts_failed (hwf : fs.WellFormed) (hc : c.Faithful) (h : tree.mergeThrough c fs = .error e fs') :
    ∃ gone, tree.FailedMerge fs e gone ∧ Erased fs fs' gone ∧
      (tree.KeepsScripts fs fs' ↔ ∀ x, gone x → tree.IsMerged fs fs' x) ∧
      ((∃ cause, e = .build tree.mergedPath cause) → (tree.KeepsScripts fs fs' ↔ ∀ x, ¬tree.IsScript fs x)) := by
  obtain ⟨gone, hfailed, herased⟩ := exists_failedMerge hwf hc h
  have hkeeps := keepsScripts_iff herased fun x => hfailed.isScript
  refine ⟨gone, hfailed, herased, hkeeps, ?_⟩
  rintro ⟨cause, rfl⟩
  cases hfailed
  rw [hkeeps]
  exact forall_congr' fun x => imp_congr_right fun _ => iff_false_intro (not_isMerged herased)

end

/-! ## Merges of small trees -/

def smallTree : Tree := ⟨"out".toList⟩

/-- One script, and a directory in the place of the merged module. -/
def blockedFiles : FileSystem :=
  { FileSystem.bare [] with
    entries := [(["out".toList], .directory), (["js".toList, "out".toList], .directory),
      (["all.js".toList, "js".toList, "out".toList], .directory),
      (["a.js".toList, "js".toList, "out".toList], .file (.text "var a;".toList) false)] }

/-- Two scripts, one of them in a directory of its own. -/
def nestedFiles : FileSystem :=
  { FileSystem.bare [] with
    entries := [(["out".toList], .directory), (["js".toList, "out".toList], .directory),
      (["a.js".toList, "js".toList, "out".toList], .file (.text "var a;".toList) false),
      (["sub".toList, "js".toList, "out".toList], .directory),
      (["b.js".toList, "sub".toList, "js".toList, "out".toList], .file (.text "var b;".toList) false)] }

def scriptPlace : Location := ["a.js".toList, "js".toList, "out".toList]

/-- Calls that may not remove anything from one directory. -/
def guardedCalls : FileCalls where
  list := FileCalls.plain.list
  read := FileCalls.plain.read
  remove p fs :=
    if Text.startsWith p "out/js/sub/".toList then .error .accessDenied fs else FileSystem.removeFile p fs
  write := FileCalls.plain.write

theorem guardedCalls_faithful : guardedCalls.Faithful := by
  refine ⟨FileCalls.plain_faithful.list, FileCalls.plain_faithful.read, fun p fs => ?_, FileCalls.plain_faithful.write⟩
  unfold guardedCalls
  dsimp only
  split
  · exact .inr ⟨_, trivial, rfl⟩
  · exact .inl rfl

theorem blockedFiles_wellFormed : blockedFiles.WellFormed := FileSystem.wellFormed_of_entries (by decide +kernel)

theorem nestedFiles_wellFormed : nestedFiles.WellFormed := FileSystem.wellFormed_of_entries (by decide +kernel)

theorem mergeThrough_blocked : smallTree.mergeThrough .plain blockedFiles =
    .error (.build "out/js/all.js".toList .isDirectory) (blockedFiles.erase scriptPlace) := rfl

theorem mergeThrough_guarded : smallTree.mergeThrough guardedCalls nestedFiles =
    .error (.remove "out/js/sub/b.js".toList .accessDenied) (nestedFiles.erase scriptPlace) := rfl

theorem isScript_blocked : smallTree.IsScript blockedFiles scriptPlace :=
  ⟨["js".toList, "out".toList], rfl, rfl, _, _, _, _, rfl, by decide +kernel, rfl⟩

/-- The script is gone where the merged module could not be written, and where the removal of another one failed. -/
theorem mergeScripts_failed_blocked :
    (smallTree.mergeThrough .plain blockedFiles =
        .error (.build "out/js/all.js".toList .isDirectory) (blockedFiles.erase scriptPlace) ∧
      ¬smallTree.KeepsScripts blockedFiles (blockedFiles.erase scriptPlace)) ∧
    (smallTree.mergeThrough guardedCalls nestedFiles =
        .error (.remove "out/js/sub/b.js".toList .accessDenied) (nestedFiles.erase scriptPlace) ∧
      ¬smallTree.KeepsScripts nestedFiles (nestedFiles.erase scriptPlace)) := by
  refine ⟨⟨mergeThrough_blocked, fun h => ?_⟩, mergeThrough_guarded, fun h => ?_⟩
  · obtain ⟨-, -, -, -, hkeeps⟩ :=
      mergeScripts_failed blockedFiles_wellFormed FileCalls.plain_faithful mergeThrough_blocked
    exact (hkeeps ⟨_, rfl⟩).1 h _ isScript_blocked
  · obtain ⟨gone, -, herased, hkeeps, -⟩ :=
      mergeScripts_failed nestedFiles_wellFormed guardedCalls_faithful mergeThrough_guarded
    have hgone : gone scriptPlace := by
      by_contra hg
      have hsame := herased.frame.find? scriptPlace hg
      revert hsame
      decide +kernel
    obtain ⟨dir, text, merged, -, executable, hs, -, hmerged, -⟩ := hkeeps.1 h _ hgone
    cases hs
    cases hmerged

/-- A merge that fails may lose the text of a script. -/
theorem merge_loses_script : ¬∀ (tree : Tree) (fs fs' : FileSystem) (e : OutputError), fs.WellFormed →
    tree.mergeScripts fs = .error e fs' → tree.KeepsScripts fs fs' := by
  intro h
  have hmerge : smallTree.mergeScripts blockedFiles = .error _ _ :=
    (congrFun (mergeScripts_eq_mergeThrough smallTree) blockedFiles).trans mergeThrough_blocked
  have hkeeps := h _ _ _ _ blockedFiles_wellFormed hmerge
  rcases hkeeps _ isScript_blocked with ⟨content, -, executable, -, hlost⟩ |
    ⟨dir, text, merged, -, executable, hs, -, hmerged, -⟩
  · cases hlost
  · cases hs
    cases hmerged

end ThriftModules.Output
