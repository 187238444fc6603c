import ThriftModules.Proofs.FileSystem.OsText
import ThriftModules.Proofs.FileSystem.Order
import ThriftModules.Proofs.Output.Files
import ThriftModules.Proofs.Text.Sites

/-!
# Listed files, read and removed

* `IsListed` : a regular file below a directory whose name is a text that ends in a suffix (`hasSuffix_iff`);
* `Lists` : all of them in listing order, with their texts;
* `lists_of_read` : files that were listed and read are these;
* `Erased` : a file system without some of its entries (`Erased.trans`, `erased_erase`, `erased_eraseBelow`);
* `removeFiles_of_files`, `Lists.exists_removed` : different files are removed without failure, and nothing else is
  (`Lists.exists_front_removed` for the first ones).
-/

namespace ThriftModules.Output

set_option autoImplicit false

open FileSystem (Frame Keeps KeepsDirs Named Reaches WalkItem entriesBelow isBelow isBelow_iff find?_erase
  mem_entriesBelow_maxDepth place_concat)

theorem hasSuffix_iff {suffix : Text} {name : OsText} :
    hasSuffix suffix name = true ↔ ∃ text, name.bytes = Text.Utf8.encode text ∧ suffix <:+ text := by
  simp [hasSuffix, Option.any_eq_true, Text.endsWith_iff, OsText.toText?_eq_some_iff]

/-- Below the directory `dir`, a regular file stands at `x` whose name is a text that ends in the suffix. -/
def IsListed (fs : FileSystem) (suffix : Text) (dir x : Location) : Prop :=
  isBelow dir x = true ∧ ∃ name above content executable, x = name :: above ∧ hasSuffix suffix name = true ∧
    fs.find? x = some (.file content executable)

/-- The files below a directory whose name ends in a suffix, each with its text, by the names that lead there, the
outermost first. They are ordered depth first, siblings by name. -/
structure Lists (fs : FileSystem) (suffix : Text) (dir : Location) (files : List (List OsText × Text)) : Prop where
  ordered : files.Pairwise (·.1 < ·.1)
  listed : ∀ x, IsListed fs suffix dir x ↔ ∃ f ∈ files, x = f.1.reverse ++ dir
  text : ∀ f ∈ files, ∃ executable, fs.find? (f.1.reverse ++ dir) = some (.file (.text f.2) executable)

def filesBelow (fs : FileSystem) (suffix : Text) (dir : Location) : List (List OsText × Content) :=
  (entriesBelow fs fs.maxDepth dir).filterMap fun e =>
    match e.2 with
    | .file content _ => if hasSuffix suffix (e.1.getLast?.getD []) then some (e.1, content) else none
    | _ => none

section
variable {fs fs' : FileSystem} {suffix : Text} {dir x : Location} {path : Path} {names : List OsText}
  {content : Content}

/-! ## Listing -/

theorem mem_filesBelow (hwf : fs.WellFormed) : (names, content) ∈ filesBelow fs suffix dir ↔
    ∃ init name executable, names = init ++ [name] ∧ hasSuffix suffix name = true ∧
      fs.find? (name :: (init.reverse ++ dir)) = some (.file content executable) := by
  unfold filesBelow
  rw [List.mem_filterMap]
  constructor
  · rintro ⟨⟨names', entry⟩, hmem, h⟩
    obtain ⟨hne, he⟩ := (mem_entriesBelow_maxDepth hwf).1 hmem
    obtain ⟨init, name, rfl⟩ : ∃ init name, names' = init ++ [name] :=
      ⟨_, _, (List.dropLast_concat_getLast hne).symm⟩
    rw [place_concat] at he
    cases entry with
    | file content' executable =>
      simp only [List.getLast?_concat, Option.getD_some] at h
      split at h
      · next hs =>
        cases h
        exact ⟨init, name, executable, rfl, hs, he⟩
      · cases h
    | _ => cases h
  · rintro ⟨init, name, executable, rfl, hs, he⟩
    refine ⟨(init ++ [name], .file content executable), ?_, ?_⟩
    · exact (mem_entriesBelow_maxDepth hwf).2 ⟨by simp, by rw [place_concat, he]⟩
    · simp only [List.getLast?_concat, Option.getD_some, hs, if_true]

theorem isListed_iff (hwf : fs.WellFormed) :
    IsListed fs suffix dir x ↔ ∃ f ∈ filesBelow fs suffix dir, x = f.1.reverse ++ dir := by
  constructor
  · rintro ⟨hb, name, above, content, executable, rfl, hs, he⟩
    obtain ⟨front, hne, hfront⟩ := isBelow_iff.1 hb
    obtain ⟨n, front, rfl⟩ := List.exists_cons_of_ne_nil hne
    obtain ⟨rfl, rfl⟩ := List.cons.inj hfront
    refine ⟨(front.reverse ++ [name], content), (mem_filesBelow hwf).2 ⟨_, name, executable, rfl, hs, ?_⟩, ?_⟩
    · rwa [List.reverse_reverse]
    · simp
  · rintro ⟨⟨names, content⟩, hmem, rfl⟩
    obtain ⟨init, name, executable, rfl, hs, he⟩ := (mem_filesBelow hwf).1 hmem
    rw [place_concat]
    exact ⟨isBelow_iff.2 ⟨name :: init.reverse, List.cons_ne_nil _ _, rfl⟩, name, _, content, executable, rfl, hs, he⟩

theorem filesBelow_sorted (fs : FileSystem) (suffix : Text) (dir : Location) :
    (filesBelow fs suffix dir).Pairwise (·.1 < ·.1) := by
  refine (FileSystem.entriesBelow_sorted fs fs.maxDepth dir).filterMap _ fun e e' hlt f hf f' hf' => ?_
  have hnames : ∀ {e : List OsText × Entry} {f : List OsText × Content}, (match e.2 with
      | .file content _ => if hasSuffix suffix (e.1.getLast?.getD []) then some (e.1, content) else none
      | _ => none) = some f → f.1 = e.1 := by
    intro e f h
    split at h
    · split at h
      · exact congrArg Prod.fst (Option.some.inj h).symm
      · cases h
    · cases h
  rw [hnames hf, hnames hf']
  exact hlt

/-- The files that are listed, by a path that stands for a directory. -/
theorem listFiles_of_stat (hwf : fs.WellFormed) (h : fs.stat path = .ok (dir, .directory)) :
    listFiles fs path suffix = .ok ((filesBelow fs suffix dir).map fun f => f.1.foldl Path.join path) := by
  have hwalk : fs.walkedFiles path = .ok ((fs.below dir path).filterMap WalkItem.file?) := by
    unfold FileSystem.walkedFiles FileSystem.walk
    obtain ⟨found, hfound⟩ := FileSystem.exists_lstat_of_stat h
    rw [hfound]
    rcases FileSystem.lstat_of_stat h hfound with rfl | ⟨d, n, target, -, -, -, rfl⟩
    · rfl
    · simp only [h]
      rfl
  unfold listFiles filesBelow
  rw [hwalk]
  refine congrArg Except.ok ?_
  rw [FileSystem.below_eq hwf, List.filterMap_map, List.filter_filterMap, List.map_filterMap]
  refine List.filterMap_congr fun e he => ?_
  obtain ⟨names, entry⟩ := e
  obtain ⟨hne, hf⟩ := (mem_entriesBelow_maxDepth hwf).1 he
  obtain ⟨init, name, rfl⟩ : ∃ init name, names = init ++ [name] := ⟨_, _, (List.dropLast_concat_getLast hne).symm⟩
  have hplace : fs.find? (name :: (init.reverse ++ dir)) = some entry := by simpa using hf
  have hn : Path.IsName name := hwf.name name (init.reverse ++ dir) (by simp [hplace])
  cases entry with
  | file content executable =>
    simp only [Function.comp_apply, WalkItem.file?, List.foldl_append, List.foldl_cons, List.foldl_nil,
      List.getLast?_concat, Option.getD_some, Option.filter, FileSystem.fileName_join hn]
    cases hasSuffix suffix name with
    | true => simp
    | false => rfl
  | _ => rfl

/-! ## Reading -/

/-- A listed file that was read has the text that was read, and its path is not too long. -/
theorem text_of_mem_filesBelow (hwf : fs.WellFormed) (hr : Reaches fs path dir)
    (h : (names, content) ∈ filesBelow fs suffix dir) {text : Text}
    (ht : fs.readText (names.foldl Path.join path) = .ok text) :
    content = .text text ∧ OsText.size (names.foldl Path.join path) < FileSystem.maxPath := by
  obtain ⟨init, name, executable, rfl, -, he⟩ := (mem_filesBelow hwf).1 h
  have hmem : ⟨(init ++ [name]).foldl Path.join path, .file content executable⟩ ∈ fs.below dir path := by
    rw [FileSystem.below_eq hwf]
    refine List.mem_map.2 ⟨(init ++ [name], .file content executable), ?_, rfl⟩
    exact (mem_entriesBelow_maxDepth hwf).2 ⟨by simp, by simpa using he⟩
  rw [FileSystem.readText_of_mem_below hwf hr hmem rfl] at ht
  split_ifs at ht with hlen
  · cases content with
    | binary bytes => cases ht
    | text t =>
      cases ht
      exact ⟨rfl, Nat.lt_of_not_le hlen⟩

theorem texts_of_readFiles {l : List (List OsText × Content)} {texts : List Text}
    (hread : ∀ f ∈ l, ∀ text, fs.readText (f.1.foldl Path.join path) = .ok text →
      f.2 = .text text ∧ OsText.size (f.1.foldl Path.join path) < FileSystem.maxPath)
    (h : readFiles fs (l.map fun f => f.1.foldl Path.join path) = .ok texts) :
    ∃ files : List (List OsText × Text), l = files.map (fun f => (f.1, .text f.2)) ∧ texts = files.map (·.2) ∧
      ∀ f ∈ files, OsText.size (f.1.foldl Path.join path) < FileSystem.maxPath := by
  induction l generalizing texts with
  | nil =>
    cases h
    exact ⟨[], rfl, rfl, by simp⟩
  | cons f l ih =>
    obtain ⟨text, rest, htext, hrest, rfl⟩ := Chain.mapM_cons_eq_ok.1 h
    obtain ⟨files, rfl, rfl, hshort⟩ := ih (fun f hf => hread f (List.mem_cons_of_mem _ hf)) hrest
    split at htext
    · next t ht =>
      cases htext
      obtain ⟨hcontent, hlen⟩ := hread f List.mem_cons_self text ht
      exact ⟨(f.1, text) :: files, by rw [List.map_cons, ← hcontent], rfl, List.forall_mem_cons.2 ⟨hlen, hshort⟩⟩
    · cases htext

/-- Files that were listed and read are all that there are, in listing order and with their texts. -/
theorem lists_of_read {paths : List Path} {texts : List Text} (hwf : fs.WellFormed)
    (h : fs.stat path = .ok (dir, .directory)) (hl : listFiles fs path suffix = .ok paths)
    (hr : readFiles fs paths = .ok texts) :
    ∃ files, Lists fs suffix dir files ∧ paths = files.map (fun f => f.1.foldl Path.join path) ∧
      texts = files.map (·.2) ∧ ∀ f ∈ files, OsText.size (f.1.foldl Path.join path) < FileSystem.maxPath := by
  have hreach := (FileSystem.stat_eq_directory_iff.1 h).2.2
  rw [listFiles_of_stat hwf h] at hl
  cases hl
  obtain ⟨files, hfiles, rfl, hshort⟩ :=
    texts_of_readFiles (fun _ hf _ ht => text_of_mem_filesBelow hwf hreach hf ht) hr
  refine ⟨files, ⟨?_, fun x => ?_, fun f hf => ?_⟩, ?_, rfl, hshort⟩
  · have hsorted := filesBelow_sorted fs suffix dir
    rwa [hfiles, List.pairwise_map] at hsorted
  · rw [isListed_iff hwf, hfiles]
    simp
  · have hmem : (f.1, Content.text f.2) ∈ filesBelow fs suffix dir := by
      rw [hfiles]
      exact List.mem_map.2 ⟨f, hf, rfl⟩
    obtain ⟨init, name, executable, hnames, -, he⟩ := (mem_filesBelow hwf).1 hmem
    exact ⟨executable, by rw [hnames]; simpa using he⟩
  · rw [hfiles, List.map_map]
    rfl

/-! ## Removing -/

/-- `fs'` is `fs` without the entries at some locations. -/
structure Erased (fs fs' : FileSystem) (W : Location → Prop) : Prop where
  frame : Frame fs fs' W
  gone : ∀ x, W x → fs'.find? x = none

theorem Erased.keeps {W : Location → Prop} (h : Erased fs fs' W) : Keeps fs' fs := by
  refine ⟨fun x entry hx => ?_, h.frame.workDir.symm, h.frame.nameLimit.symm⟩
  by_cases hw : W x
  · rw [h.gone x hw] at hx
    cases hx
  · rwa [h.frame.find? x hw] at hx

theorem Erased.congr {W W' : Location → Prop} (h : Erased fs fs' W) (hW : ∀ x, W x ↔ W' x) : Erased fs fs' W' :=
  ⟨h.frame.mono fun x => (hW x).1, fun x hx => h.gone x ((hW x).2 hx)⟩

theorem Erased.trans {g : FileSystem} {W W' : Location → Prop} (h : Erased fs g W) (h' : Erased g fs' W') :
    Erased fs fs' (fun x => W x ∨ W' x) := by
  refine ⟨(h.frame.mono fun _ => .inl).trans (h'.frame.mono fun _ => .inr), fun x hx => ?_⟩
  rcases hx with hx | hx
  · -- what the first removal has taken away does not come back
    rw [Option.eq_none_iff_forall_ne_some]
    intro entry hentry
    have hback := h'.keeps.find? _ _ hentry
    rw [h.gone x hx] at hback
    cases hback
  · exact h'.gone x hx

theorem erased_erase (fs : FileSystem) {loc : Location} (hl : loc ≠ []) : Erased fs (fs.erase loc) (· = loc) :=
  ⟨Frame.erase fs hl, fun x hx => by rw [find?_erase hl, if_pos hx]⟩

theorem erased_eraseBelow (fs : FileSystem) (dir : Location) :
    Erased fs (fs.eraseBelow dir) (fun x => isBelow dir x = true) :=
  ⟨Frame.eraseBelow fs dir, fun x hx => by rw [FileSystem.find?_eraseBelow, if_pos hx]⟩

/-- A file that stands below a directory is removed, and nothing else is. -/
theorem removeFile_of_file {executable : Bool} (hwf : fs.WellFormed) (hr : Reaches fs path dir) (hne : names ≠ [])
    (he : fs.find? (names.reverse ++ dir) = some (.file content executable))
    (hlen : OsText.size (names.foldl Path.join path) < FileSystem.maxPath) :
    ∃ fs', FileSystem.removeFile (names.foldl Path.join path) fs = .ok () fs' ∧
      Erased fs fs' (· = names.reverse ++ dir) ∧ KeepsDirs fs fs' ∧ fs'.WellFormed := by
  obtain ⟨d, n, hplace, hn, hslash, -⟩ := hr.named_foldl_join hwf hne he hlen
  rw [hplace] at he ⊢
  have hcons : n :: d ≠ [] := List.cons_ne_nil n d
  refine ⟨fs.erase (n :: d), ?_, erased_erase fs hcons, ⟨fun x entry hx hfile => ?_, rfl, rfl⟩,
    hwf.erase fun x hx => hwf.find?_below (by rw [he]; simp) hx⟩
  · rw [FileSystem.removeFile_of_named hn, he]
    simp only [hslash, Bool.false_eq_true, if_false]
  · rw [find?_erase hcons, if_neg, hx]
    rintro rfl
    rw [he] at hx
    exact hfile content executable (Option.some.inj hx).symm

/-- Different files that stand below a directory are removed, and nothing else is. -/
theorem removeFiles_of_files {l : List (List OsText)} (hwf : fs.WellFormed) (hr : Reaches fs path dir)
    (hnodup : l.Nodup) (hne : ∀ names ∈ l, names ≠ [])
    (hfile : ∀ names ∈ l, ∃ content executable, fs.find? (names.reverse ++ dir) = some (.file content executable))
    (hshort : ∀ names ∈ l, OsText.size (names.foldl Path.join path) < FileSystem.maxPath) :
    ∃ fs', removeFiles (l.map fun names => names.foldl Path.join path) fs = .ok () fs' ∧
      Erased fs fs' (fun x => ∃ names ∈ l, x = names.reverse ++ dir) ∧ fs'.WellFormed := by
  induction l generalizing fs with
  | nil => exact ⟨fs, rfl, ⟨Frame.refl fs _, by simp⟩, hwf⟩
  | cons names l ih =>
    obtain ⟨hnew, hnodup⟩ := List.nodup_cons.1 hnodup
    rw [List.forall_mem_cons] at hne hfile hshort
    obtain ⟨content, executable, he⟩ := hfile.1
    obtain ⟨fs₁, hremove, herased₁, hdirs, hwf₁⟩ := removeFile_of_file hwf hr hne.1 he hshort.1
    have hfile₁ : ∀ other ∈ l, ∃ content executable,
        fs₁.find? (other.reverse ++ dir) = some (.file content executable) := by
      intro other ho
      rw [herased₁.frame.find?]
      · exact hfile.2 other ho
      · exact fun e => hnew (List.reverse_injective (List.append_cancel_right e) ▸ ho)
    obtain ⟨fs', hrest, herased₂, hwf'⟩ := ih hwf₁ (hr.keepsDirs hdirs) hnodup hne.2 hfile₁ hshort.2
    refine ⟨fs', Chain.run_bind_eq_ok.2 ⟨(), _, orFail_eq_ok.2 hremove, hrest⟩, ?_, hwf'⟩
    exact (herased₁.trans herased₂).congr fun x => by simp

/-- The first of the listed files, where they still stand below a directory, are removed, and nothing else is. -/
theorem Lists.exists_front_removed {g : FileSystem} {files back : List (List OsText × Text)}
    (h : Lists fs suffix dir (files ++ back)) (hwf : g.WellFormed) (hr : Reaches g path dir)
    (hsame : ∀ x, IsListed fs suffix dir x → g.find? x = fs.find? x)
    (hshort : ∀ f ∈ files, OsText.size (f.1.foldl Path.join path) < FileSystem.maxPath) :
    ∃ g', removeFiles (files.map fun f => f.1.foldl Path.join path) g = .ok () g' ∧
      Erased g g' (fun x => ∃ f ∈ files, x = f.1.reverse ++ dir) ∧ g'.WellFormed := by
  have hlisted : ∀ names ∈ files.map (·.1), IsListed fs suffix dir (names.reverse ++ dir) := by
    intro names hn
    obtain ⟨f, hf, rfl⟩ := List.mem_map.1 hn
    exact (h.listed _).2 ⟨f, List.mem_append_left back hf, rfl⟩
  have hplaces : ∀ x, (∃ names ∈ files.map (·.1), x = names.reverse ++ dir) ↔
      ∃ f ∈ files, x = f.1.reverse ++ dir := by
    intro x
    simp
  have hnodup : (files.map (·.1)).Nodup := by
    rw [List.Nodup, List.pairwise_map]
    refine (List.pairwise_append.1 h.ordered).1.imp fun {f f'} hlt e => ?_
    rw [e] at hlt
    exact List.lt_irrefl f'.1 hlt
  have hne : ∀ names ∈ files.map (·.1), names ≠ [] := by
    rintro names hn rfl
    simpa using (hlisted [] hn).1
  have hfile : ∀ names ∈ files.map (·.1), ∃ content executable,
      g.find? (names.reverse ++ dir) = some (.file content executable) := by
    intro names hn
    obtain ⟨-, name, above, content, executable, -, -, he⟩ := id (hlisted names hn)
    exact ⟨content, executable, by rw [hsame _ (hlisted names hn), he]⟩
  have hlen : ∀ names ∈ files.map (·.1), OsText.size (names.foldl Path.join path) < FileSystem.maxPath := by
    intro names hn
    obtain ⟨f, hf, rfl⟩ := List.mem_map.1 hn
    exact hshort f hf
  obtain ⟨g', hremove, herased, hwf'⟩ := removeFiles_of_files hwf hr hnodup hne hfile hlen
  rw [List.map_map] at hremove
  exact ⟨g', hremove, herased.congr hplaces, hwf'⟩

/-- Listed files that still stand below a directory are removed, and nothing else is. -/
theorem Lists.exists_removed {g : FileSystem} {files : List (List OsText × Text)} (h : Lists fs suffix dir files)
    (hwf : g.WellFormed) (hr : Reaches g path dir) (hsame : ∀ x, IsListed fs suffix dir x → g.find? x = fs.find? x)
    (hshort : ∀ f ∈ files, OsText.size (f.1.foldl Path.join path) < FileSystem.maxPath) :
    ∃ g', removeFiles (files.map fun f => f.1.foldl Path.join path) g = .ok () g' ∧
      Erased g g' (IsListed fs suffix dir) ∧ g'.WellFormed := by
  rw [← List.append_nil files] at h
  obtain ⟨g', hremove, herased, hwf'⟩ := h.exists_front_removed hwf hr hsame hshort
  rw [List.append_nil] at h
  exact ⟨g', hremove, herased.congr fun x => (h.listed x).symm, hwf'⟩

end

end ThriftModules.Output
