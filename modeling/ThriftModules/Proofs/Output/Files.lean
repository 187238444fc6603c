import ThriftModules.Output.Files
import ThriftModules.Proofs.Ends
import ThriftModules.Proofs.FileSystem.Listing
import ThriftModules.Proofs.FileSystem.Removing
import ThriftModules.Proofs.Output.Atomic

/-!
# Generated files listed, read, removed and written

* `listFiles_of_named` : the files below a directory that a path names;
* `removeFiles_ends_of_listFiles` : files listed below a directory are removed there and nowhere else;
* `HoldsAt` : the files that lie below a directory, with `HoldsAt.snoc` for one more.
-/

namespace ThriftModules.Output

set_option autoImplicit false

open FileSystem (DiskM Named Reaches Frame Keeps KeepsDirs WalkItem inspect orFail runOn isBelow isBelow_cons find?_put
  find?_erase)
open Chain (Ends)

section
variable {fs fs' : FileSystem} {path : Path} {dir : Location} {name suffix text : Text}

/-! ## Listing and reading -/

theorem listFiles_of_named (h : Named fs path dir name) (hd : fs.find? (name :: dir) = some .directory) :
    listFiles fs path suffix =
      .ok (((fs.below (name :: dir) path).filterMap WalkItem.file?).filter fun p =>
        hasSuffix suffix (Path.fileName p)) := by
  unfold listFiles FileSystem.walkedFiles FileSystem.walk
  rw [h.lstat_directory hd]
  rfl

theorem exists_item_of_mem_listFiles {files : List Path} (h : Named fs path dir name)
    (hd : fs.find? (name :: dir) = some .directory) (hl : listFiles fs path suffix = .ok files) {file : Path}
    (hf : file ∈ files) : ∃ item ∈ fs.below (name :: dir) path, ∃ content executable,
      item.path = file ∧ item.entry = .file content executable := by
  rw [listFiles_of_named h hd] at hl
  cases hl
  obtain ⟨item, hitem, hfile⟩ := List.mem_filterMap.1 (List.mem_filter.1 hf).1
  refine ⟨item, hitem, ?_⟩
  unfold WalkItem.file? at hfile
  split at hfile
  · next content executable he => exact ⟨content, executable, Option.some.inj hfile, he⟩
  · cases hfile

/-- The path names a regular file that stands below the directory at `top`. -/
def IsFileBelow (fs : FileSystem) (top : Location) (file : Path) : Prop :=
  ∃ base loc n content executable, Path.IsName n ∧ file = Path.join base n ∧ Reaches fs base loc ∧
    isBelow top (n :: loc) = true ∧ fs.find? (n :: loc) = some (.file content executable)

theorem isFileBelow_of_mem_listFiles {files : List Path} (hwf : fs.WellFormed) (h : Named fs path dir name)
    (hd : fs.find? (name :: dir) = some .directory) (hl : listFiles fs path suffix = .ok files) {file : Path}
    (hf : file ∈ files) : IsFileBelow fs (name :: dir) file := by
  obtain ⟨item, hitem, content, executable, rfl, he⟩ := exists_item_of_mem_listFiles h hd hl hf
  obtain ⟨base, loc, n, hn, hp, hreach, hb, hfind⟩ := FileSystem.exists_of_mem_below hwf (h.reaches hd) hitem
  exact ⟨base, loc, n, content, executable, hn, hp, hreach, hb, by rw [hfind, he]⟩

theorem readFiles_congr {files : List Path} (h : ∀ file ∈ files, fs'.readText file = fs.readText file) :
    readFiles fs' files = readFiles fs files :=
  Chain.mapM_congr fun file hf => by rw [h file hf]

/-- Where two file systems agree below a directory, the same files are listed and the same texts read there. -/
theorem readFiles_of_below (hwf : fs.WellFormed) (hwf' : fs'.WellFormed) (h : Named fs path dir name)
    (h' : Named fs' path dir name) (hd : fs.find? (name :: dir) = some .directory)
    (hd' : fs'.find? (name :: dir) = some .directory)
    (hbelow : ∀ x, isBelow (name :: dir) x = true → fs'.find? x = fs.find? x) :
    listFiles fs' path suffix = listFiles fs path suffix ∧
      ∀ files, listFiles fs path suffix = .ok files → readFiles fs' files = readFiles fs files := by
  have hitems : fs'.below (name :: dir) path = fs.below (name :: dir) path := FileSystem.below_congr hbelow
  refine ⟨?_, fun files hl => readFiles_congr fun file hf => ?_⟩
  · rw [listFiles_of_named h hd, listFiles_of_named h' hd', hitems]
  · obtain ⟨item, hitem, content, executable, rfl, he⟩ := exists_item_of_mem_listFiles h hd hl hf
    rw [FileSystem.readText_of_mem_below hwf (h.reaches hd) hitem he,
      FileSystem.readText_of_mem_below hwf' (h'.reaches hd') (hitems ▸ hitem) he]

/-! ## Removing -/

/-- Whether the removal goes through or not, only the given places are touched, and nothing new is there. -/
theorem removeFiles_ends {files : List Path} {W : Location → Prop} (hwf : fs.WellFormed)
    (hW : ∀ file ∈ files, ∀ d n, Named fs file d n → W (n :: d)) :
    Ends (fun _ fs' => Frame fs fs' W ∧ Keeps fs' fs ∧ fs'.WellFormed)
      (fun _ fs' => Frame fs fs' W ∧ Keeps fs' fs ∧ fs'.WellFormed) (removeFiles files fs) := by
  induction files generalizing fs with
  | nil => exact ⟨Frame.refl _ W, Keeps.refl _, hwf⟩
  | cons file files ih =>
    have hfirst : Ends (fun _ fs₁ => ∃ d n entry, Named fs file d n ∧ fs.find? (n :: d) = some entry ∧
        entry ≠ .directory ∧ fs₁ = fs.erase (n :: d)) (fun _ fs₁ => fs₁ = fs)
        (orFail (OutputError.remove file) (FileSystem.removeFile file) fs) :=
      ends_orFail (Chain.ends_iff.2 ⟨fun _ _ => FileSystem.removeFile_eq_ok, fun _ _ =>
        FileSystem.removeFile_eq_error⟩)
    refine (hfirst.mono (fun _ _ h => h) ?_).bind ?_
    · rintro e _ rfl
      exact ⟨Frame.refl _ W, Keeps.refl _, hwf⟩
    · rintro _ _ - ⟨d, n, entry, hn, he, hne, rfl⟩
      have hkeep := Keeps.erase fs (List.cons_ne_nil n d)
      have hwf₁ : (fs.erase (n :: d)).WellFormed :=
        hwf.erase fun x hx => hwf.find?_below (fun hdir => hne (Option.some.inj (he.symm.trans hdir))) hx
      have hstep : Frame fs (fs.erase (n :: d)) W := (Frame.erase fs (List.cons_ne_nil n d)).mono fun x hx =>
        hx ▸ hW file List.mem_cons_self d n hn
      have hrest := ih hwf₁ fun f hf d n hn => hW f (List.mem_cons_of_mem _ hf) d n (hn.keepsDirs hkeep.dirs)
      exact hrest.mono (fun _ _ ⟨hf, hk, hwf'⟩ => ⟨hstep.trans hf, hk.trans hkeep, hwf'⟩)
        fun _ _ ⟨hf, hk, hwf'⟩ => ⟨hstep.trans hf, hk.trans hkeep, hwf'⟩

/-- Files listed below a directory are removed there and nowhere else. -/
theorem removeFiles_ends_of_listFiles {files : List Path} {g : FileSystem} (hwf : g.WellFormed) (hwf' : fs.WellFormed)
    (hg : FileSystem.KeepsDirs fs g) (h : Named g path dir name) (hd : g.find? (name :: dir) = some .directory)
    (hl : listFiles g path suffix = .ok files) :
    Ends (fun _ fs' => Frame fs fs' (isBelow (name :: dir) · = true) ∧ Keeps fs' fs ∧ fs'.WellFormed)
      (fun _ fs' => Frame fs fs' (isBelow (name :: dir) · = true) ∧ Keeps fs' fs ∧ fs'.WellFormed)
      (removeFiles files fs) := by
  refine removeFiles_ends hwf' fun file hf d n hn => ?_
  obtain ⟨base, loc, k, -, -, hk, rfl, hreach, hb, -⟩ := isFileBelow_of_mem_listFiles hwf h hd hl hf
  obtain ⟨rfl, rfl⟩ := (hn.keepsDirs hg).of_join hreach hk
  exact hb

theorem removeFiles_of_listFiles {files : List Path} {g : FileSystem} (hwf : g.WellFormed) (hwf' : fs.WellFormed)
    (hg : FileSystem.KeepsDirs fs g) (h : Named g path dir name) (hd : g.find? (name :: dir) = some .directory)
    (hl : listFiles g path suffix = .ok files) (hr : removeFiles files fs = .ok () fs') :
    Frame fs fs' (fun x => isBelow (name :: dir) x = true) ∧ Keeps fs' fs ∧ fs'.WellFormed :=
  (removeFiles_ends_of_listFiles hwf hwf' hg h hd hl).ok hr

/-! ## Writing -/

/-- Exactly the given files, by name and text, lie below a directory. -/
def HoldsAt (fs : FileSystem) (dir : Location) (files : List (OsText × Text)) : Prop :=
  ∀ x entry, isBelow dir x = true →
    (fs.find? x = some entry ↔ ∃ file ∈ files, x = file.1 :: dir ∧ entry = .file (.text file.2) false)

theorem HoldsAt.congr {files : List (OsText × Text)} (h : HoldsAt fs dir files)
    (hf : ∀ x, isBelow dir x = true → fs'.find? x = fs.find? x) : HoldsAt fs' dir files := by
  intro x entry hx
  rw [hf x hx]
  exact h x entry hx

theorem HoldsAt.find?_of_mem {files : List (OsText × Text)} (h : HoldsAt fs dir files) {file : OsText × Text}
    (hf : file ∈ files) : fs.find? (file.1 :: dir) = some (.file (.text file.2) false) :=
  (h _ _ (isBelow_cons file.1 dir)).2 ⟨file, hf, rfl, rfl⟩

theorem HoldsAt.find?_eq_none {files : List (OsText × Text)} (h : HoldsAt fs dir files)
    (hn : ∀ file ∈ files, file.1 ≠ name) : fs.find? (name :: dir) = none := by
  rw [Option.eq_none_iff_forall_ne_some]
  intro entry he
  obtain ⟨file, hf, e, -⟩ := (h _ entry (isBelow_cons name dir)).1 he
  exact hn file hf (List.cons.inj e).1.symm

theorem HoldsAt.snoc {files : List (OsText × Text)} (h : HoldsAt fs dir files)
    (hf : ∀ x, isBelow dir x = true →
      fs'.find? x = if x = name :: dir then some (.file (.text text) false) else fs.find? x)
    (hnew : ∀ file ∈ files, file.1 ≠ name) : HoldsAt fs' dir (files ++ [(name, text)]) := by
  intro x entry hx
  rw [hf x hx]
  split
  · next e =>
    subst e
    constructor
    · intro he
      cases he
      exact ⟨(name, text), by simp, rfl, rfl⟩
    · rintro ⟨file, hfile, he, rfl⟩
      rcases List.mem_append.1 hfile with hfile | hfile
      · exact absurd (List.cons.inj he).1.symm (hnew file hfile)
      · rw [List.mem_singleton.1 hfile]
  · next hne =>
    rw [h x entry hx]
    constructor
    · rintro ⟨file, hfile, he⟩
      exact ⟨file, List.mem_append_left _ hfile, he⟩
    · rintro ⟨file, hfile, rfl, he⟩
      rcases List.mem_append.1 hfile with hfile | hfile
      · exact ⟨file, hfile, rfl, he⟩
      · rw [List.mem_singleton.1 hfile] at hne
        exact absurd rfl hne

theorem writeAtomically_eq_ok {base : Path} (hwf : fs.WellFormed) (hbase : Reaches fs base dir)
    (hname : Path.IsName name) (h : writeAtomically (Path.join base name) text fs = .ok () fs') :
    Puts fs fs' (name :: dir) (.file (.text text) false) ∧ fs'.WellFormed := by
  have hputs := putsAt_of_writeAtomically h
  exact ⟨hputs.join hbase hname, hputs.wellFormed hwf⟩

end

end ThriftModules.Output
