import ThriftModules.Output.Tree
import ThriftModules.Proofs.Output.Listed

/-!
# Script modules merged into one

* `Tree.IsScript` : what a merge removes;
* `Merges` : a directory whose scripts were joined into one, and nothing else changed;
* `mergeScripts_eq_ok` : a merge that succeeds has done this;
* `Merges.erased` : it stays so when entries that have no part in it are taken away.
-/

namespace ThriftModules.Output

set_option autoImplicit false

open FileSystem (Frame Keeps Named Reaches WalkItem inspect isBelow isBelow_cons)

def Tree.mergedPath (tree : Tree) : Path := Path.join tree.scriptDir mergedName

/-- A script of the tree stands at `x`. -/
def Tree.IsScript (tree : Tree) (fs : FileSystem) (x : Location) : Prop :=
  ∃ dir, fs.stat tree.scriptDir = .ok (dir, .directory) ∧ IsListed fs scriptSuffix dir x

/-- The scripts below the directory `dir` are joined into one in `fs'`, and nothing else has changed. -/
structure Merges (fs fs' : FileSystem) (dir : Location) (files : List (List OsText × Text)) : Prop where
  place : fs.find? (mergedName :: dir) ≠ some .directory
  lists : Lists fs scriptSuffix dir files
  merged : fs'.find? (mergedName :: dir) = some (.file (.text (Tree.mergedText (files.map (·.2)))) false)
  only : ∀ x, IsListed fs' scriptSuffix dir x ↔ x = mergedName :: dir
  gone : ∀ x, IsListed fs scriptSuffix dir x → x ≠ mergedName :: dir → fs'.find? x = none
  frame : Frame fs fs' fun x => x = mergedName :: dir ∨ IsListed fs scriptSuffix dir x

section
variable {fs fs' g : FileSystem} {tree : Tree} {path : Path} {dir : Location} {suffix : Text} {e : OutputError}

theorem listFiles_eq_nil {files : List Path} (h : ∀ dir, fs.stat path ≠ .ok (dir, .directory))
    (hname : hasSuffix suffix (Path.fileName path) = false) (hl : listFiles fs path suffix = .ok files) :
    files = [] := by
  have hfiles : ∀ paths, fs.walkedFiles path = .ok paths → paths ⊆ [path] := by
    intro paths hw
    unfold FileSystem.walkedFiles FileSystem.walk at hw
    split at hw
    · cases hw
    · next dir hd => exact absurd (FileSystem.stat_of_lstat hd) (h dir)
    · split at hw
      · cases hw
      · next dir hd => exact absurd hd (h dir)
      · cases hw
        exact List.nil_subset _
    · next entry hdir hlink hentry =>
      cases hw
      cases entry with
      | directory => exact absurd rfl hdir
      | link target => exact absurd rfl (hlink target)
      | file content executable => exact List.Subset.refl _
  unfold listFiles at hl
  split at hl
  · next paths hw =>
    cases hl
    refine List.filter_eq_nil_iff.2 fun p hp => ?_
    rw [List.mem_singleton.1 (hfiles paths hw hp), hname]
    exact Bool.false_ne_true
  · cases hl

/-! ## The merge -/

theorem isName_js : Path.IsName "js".toList := by decide

theorem isName_mergedName : Path.IsName mergedName := by decide

theorem isScript_iff (hs : fs.stat tree.scriptDir = .ok (dir, .directory)) {x : Location} :
    tree.IsScript fs x ↔ IsListed fs scriptSuffix dir x := by
  rw [Tree.IsScript, hs]
  simp

theorem listFiles_scripts_eq_nil {paths : List Path} (h : ∀ dir, fs.stat tree.scriptDir ≠ .ok (dir, .directory))
    (hl : listFiles fs tree.scriptDir scriptSuffix = .ok paths) : paths = [] := by
  refine listFiles_eq_nil h ?_ hl
  rw [Tree.scriptDir, FileSystem.fileName_join isName_js]
  decide +kernel

/-- The scripts of a tree that were listed and read are removed. -/
theorem removeFiles_scripts {paths : List Path} {texts : List Text} (hwf : fs.WellFormed)
    (hl : listFiles fs tree.scriptDir scriptSuffix = .ok paths) (hr : readFiles fs paths = .ok texts) :
    ∃ g, removeFiles paths fs = .ok () g ∧ Erased fs g (tree.IsScript fs) ∧ g.WellFormed := by
  by_cases hdir : ∃ dir, fs.stat tree.scriptDir = .ok (dir, .directory)
  · obtain ⟨dir, hs⟩ := hdir
    obtain ⟨files, hlists, rfl, -, hshort⟩ := lists_of_read hwf hs hl hr
    obtain ⟨g, hremove, herased, hwf'⟩ :=
      hlists.exists_removed hwf (FileSystem.stat_eq_directory_iff.1 hs).2.2 (fun _ _ => rfl) hshort
    exact ⟨g, hremove, herased.congr fun x => (isScript_iff hs).symm, hwf'⟩
  · obtain rfl := listFiles_scripts_eq_nil (fun dir hs => hdir ⟨dir, hs⟩) hl
    exact ⟨fs, rfl, ⟨Frame.refl fs _, fun x ⟨dir, hs, _⟩ => absurd ⟨dir, hs⟩ hdir⟩, hwf⟩

theorem mergeScripts_steps {merged : Path} (h : tree.mergeScripts fs = .ok merged fs') :
    merged = tree.mergedPath ∧ ∃ paths texts g, listFiles fs tree.scriptDir scriptSuffix = .ok paths ∧
      readFiles fs paths = .ok texts ∧ removeFiles paths fs = .ok () g ∧
      writeAtomically tree.mergedPath (Tree.mergedText texts) g = .ok () fs' := by
  unfold Tree.mergeScripts at h
  obtain ⟨paths, _, h₁, r₁⟩ := Chain.run_bind_eq_ok.1 h
  obtain ⟨hl, rfl⟩ := FileSystem.inspect_eq_ok.1 h₁
  obtain ⟨texts, _, h₂, r₂⟩ := Chain.run_bind_eq_ok.1 r₁
  obtain ⟨hr, rfl⟩ := FileSystem.inspect_eq_ok.1 h₂
  obtain ⟨_, g, h₃, r₃⟩ := Chain.run_bind_eq_ok.1 r₂
  obtain ⟨_, _, h₄, r₄⟩ := Chain.run_bind_eq_ok.1 r₃
  cases r₄
  exact ⟨rfl, paths, texts, g, hl, hr, h₃, h₄⟩

/-- A merge that succeeds has joined the scripts of the tree into one. -/
theorem mergeScripts_eq_ok {merged : Path} (hwf : fs.WellFormed) (h : tree.mergeScripts fs = .ok merged fs') :
    merged = tree.mergedPath ∧ ∃ dir files, fs.stat tree.scriptDir = .ok (dir, .directory) ∧ Merges fs fs' dir files := by
  obtain ⟨rfl, paths, texts, g, hl, hr, hremove, hwrite⟩ := mergeScripts_steps h
  obtain ⟨_, hremove', herased, hwf'⟩ := removeFiles_scripts hwf hl hr
  rw [hremove] at hremove'
  cases hremove'
  obtain ⟨dir, name, hn, hd, hputs⟩ := putsAt_of_writeAtomically hwrite
  obtain ⟨rfl, hbase⟩ := hn.of_join_reaches isName_mergedName
  have hlen := Nat.lt_of_le_of_lt (Path.size_le_join tree.scriptDir isName_mergedName) hn.short
  have hs := (hbase.keepsDirs herased.keeps.dirs).stat (Path.join_ne_nil isName_js) hlen
  have hscript : ∀ x, tree.IsScript fs x ↔ IsListed fs scriptSuffix dir x := fun x => isScript_iff hs
  obtain ⟨files, hlists, -, rfl, -⟩ := lists_of_read hwf hs hl hr
  refine ⟨rfl, dir, files, hs, fun hdir => hd ?_, hlists, ?_, fun x => ⟨fun hx => ?_, ?_⟩, fun x hx hne => ?_, ?_⟩
  · rw [herased.frame.find? _ fun hx => ?_, hdir]
    obtain ⟨-, _, _, _, _, -, -, he⟩ := (hscript _).1 hx
    rw [hdir] at he
    cases he
  · rw [hputs.find?, if_pos rfl]
  · by_contra hne
    obtain ⟨hb, n, above, content, executable, rfl, hsuffix, he⟩ := hx
    rw [hputs.find?, if_neg hne] at he
    have hthere : IsListed fs scriptSuffix dir (n :: above) :=
      ⟨hb, n, above, content, executable, rfl, hsuffix, herased.keeps.find? _ _ he⟩
    rw [herased.gone _ ((hscript _).2 hthere)] at he
    cases he
  · rintro rfl
    exact ⟨isBelow_cons _ _, _, _, _, _, rfl, by decide, by rw [hputs.find?, if_pos rfl]⟩
  · rw [hputs.find?, if_neg hne, herased.gone x ((hscript x).2 hx)]
  · exact (herased.frame.mono fun x hx => .inr ((hscript x).1 hx)).trans (hputs.frame.mono fun x hx => .inl hx)

/-- Entries that are neither scripts nor the merged module may be taken away on both sides. -/
theorem Merges.erased {files : List (List OsText × Text)} {f f' : FileSystem} {W : Location → Prop}
    (h : Merges fs fs' dir files) (hf : Erased fs f W) (hf' : Erased fs' f' W)
    (hscript : ∀ x, IsListed fs scriptSuffix dir x → ¬W x) (hplace : ¬W (mergedName :: dir)) :
    Merges f f' dir files := by
  have hlisted : ∀ x, IsListed f scriptSuffix dir x ↔ IsListed fs scriptSuffix dir x := by
    intro x
    constructor
    · rintro ⟨hb, name, above, content, executable, hx, hsuffix, he⟩
      exact ⟨hb, name, above, content, executable, hx, hsuffix, hf.keeps.find? _ _ he⟩
    · intro hx
      obtain ⟨hb, name, above, content, executable, hname, hsuffix, he⟩ := id hx
      exact ⟨hb, name, above, content, executable, hname, hsuffix, by rw [hf.frame.find? x (hscript x hx), he]⟩
  refine ⟨?_, ⟨h.lists.ordered, fun x => (hlisted x).trans (h.lists.listed x), fun file hfile => ?_⟩, ?_, fun x => ?_,
    fun x hx hne => ?_, fun x hx => ?_, ?_, ?_⟩
  · rw [hf.frame.find? _ hplace]
    exact h.place
  · obtain ⟨executable, he⟩ := h.lists.text file hfile
    have hx := (h.lists.listed _).2 ⟨file, hfile, rfl⟩
    exact ⟨executable, by rw [hf.frame.find? _ (hscript _ hx), he]⟩
  · rw [hf'.frame.find? _ hplace, h.merged]
  · constructor
    · rintro ⟨hb, name, above, content, executable, hx, hsuffix, he⟩
      exact (h.only x).1 ⟨hb, name, above, content, executable, hx, hsuffix, hf'.keeps.find? _ _ he⟩
    · rintro rfl
      exact ⟨isBelow_cons _ _, _, _, _, _, rfl, by decide, by rw [hf'.frame.find? _ hplace, h.merged]⟩
  · rw [hf'.frame.find? x (hscript x ((hlisted x).1 hx)), h.gone x ((hlisted x).1 hx) hne]
  · rw [hlisted] at hx
    by_cases hw : W x
    · rw [hf'.gone x hw, hf.gone x hw]
    · rw [hf'.frame.find? x hw, h.frame.find? x hx, hf.frame.find? x hw]
  · rw [hf'.frame.workDir, h.frame.workDir, hf.frame.workDir]
  · rw [hf'.frame.nameLimit, h.frame.nameLimit, hf.frame.nameLimit]

end

end ThriftModules.Output
