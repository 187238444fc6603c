import ThriftModules.FileSystem.Operations
import ThriftModules.Proofs.Chain
import ThriftModules.Proofs.FileSystem.Leads

/-!
# Paths that stand for directories

* `Reaches` : a path that stands for a directory, as `stat` finds it (`Reaches.stat`, `reaches_of_stat`);
* `Named` : the place in a directory that a path names, as `slot` finds it (`slot_eq_name_iff`);
* `slot_join`, `Reaches.stat_join`, `Reaches.join`, `Reaches.find?_of_lstat` : a name below a path that stands for a
  directory;
* `Named.of_join_reaches` : a path below which a place is named stands for the directory of that place;
* `Reaches.keepsDirs`, `Named.keepsDirs` : both last as long as the directories and links do.
-/

namespace ThriftModules.FileSystem

set_option autoImplicit false

/-- The path stands for the directory at a location. -/
structure Reaches (fs : FileSystem) (p : Path) (loc : Location) : Prop where
  leads : Leads fs maxLinks (startOf fs.workDir p) (Path.names p) loc
  directory : fs.find? loc = some .directory

/-- The path names the place under `name` in the directory `dir`. -/
structure Named (fs : FileSystem) (p : Path) (dir : Location) (name : OsText) : Prop where
  nonempty : p ≠ []
  short : OsText.size p < maxPath
  segments : ∃ pre, Path.segments p = pre ++ [name] ∧ Leads fs maxLinks (startOf fs.workDir p) pre dir
  directory : fs.find? dir = some .directory
  lookedUp : IsLookedUp fs name

section
variable {fs fs' : FileSystem} {p base : Path} {loc dir : Location} {name : OsText}

theorem thin_segments (p : Path) : Thin (Path.segments p) (Path.names p) := Thin.filter _

theorem thin_steps (p : Path) : Thin (Path.steps p) (Path.names p) := by
  have hs : (Path.steps p).filter (· ≠ ['.']) = Path.names p := by
    unfold Path.steps Path.names
    rw [List.filter_append]
    split <;> simp
  rw [← hs]
  exact Thin.filter _

theorem startOf_join (dir : Location) (h : Path.IsName name) :
    startOf dir (Path.join base name) = startOf dir base := by
  unfold startOf
  rw [Path.isAbsolute_join h]

theorem startOf_parent {q : Path} (dir : Location) (h : Path.parent? p = some q) : startOf dir q = startOf dir p := by
  unfold startOf
  rw [(Path.names_parent h).2]

theorem Reaches.unique {loc' : Location} (h : Reaches fs p loc) (h' : Reaches fs p loc') : loc = loc' :=
  h.leads.unique h'.leads

theorem Reaches.keepsDirs (h : Reaches fs p loc) (hk : KeepsDirs fs fs') : Reaches fs' p loc := by
  refine ⟨?_, hk.find? loc _ h.directory (by simp)⟩
  rw [hk.workDir]
  exact h.leads.keepsDirs hk h.directory

theorem Named.keepsDirs (h : Named fs p dir name) (hk : KeepsDirs fs fs') : Named fs' p dir name := by
  obtain ⟨pre, hs, hl⟩ := h.segments
  refine ⟨h.nonempty, h.short, ⟨pre, hs, ?_⟩, hk.find? dir _ h.directory (by simp),
    h.lookedUp.notDot, h.lookedUp.notDotDot, hk.nameLimit ▸ h.lookedUp.short⟩
  rw [hk.workDir]
  exact hl.keepsDirs hk h.directory

theorem Named.names (h : Named fs p dir name) :
    ∃ pre, Path.names p = pre ++ [name] ∧ Leads fs maxLinks (startOf fs.workDir p) pre dir := by
  obtain ⟨pre, hs, hl⟩ := h.segments
  refine ⟨pre.filter (· ≠ ['.']), ?_, hl.thin (Thin.filter pre)⟩
  unfold Path.names
  rw [hs, List.filter_append]
  simp [h.lookedUp.notDot]

theorem Named.isName (h : Named fs p dir name) : Path.IsName name := by
  obtain ⟨pre, hs, -⟩ := h.segments
  exact Path.isName_of_mem_segments (p := p) (by simp [hs]) h.lookedUp.notDot h.lookedUp.notDotDot

theorem Named.unique {dir' : Location} {name' : OsText} (h : Named fs p dir name) (h' : Named fs p dir' name') :
    dir = dir' ∧ name = name' := by
  obtain ⟨pre, hs, hl⟩ := h.segments
  obtain ⟨pre', hs', hl'⟩ := h'.segments
  obtain ⟨rfl, hn⟩ := List.append_inj' (hs.symm.trans hs') rfl
  exact ⟨hl.unique hl', (List.cons.inj hn).1⟩

/-! ## Lookups -/

theorem stat_eq_directory_iff :
    fs.stat p = .ok (loc, .directory) ↔ p ≠ [] ∧ OsText.size p < maxPath ∧ Reaches fs p loc := by
  have hlocate : fs.stat p = .ok (loc, .directory) ↔
      fs.locate fs.workDir p = .ok loc ∧ fs.find? loc = some .directory := by
    unfold stat
    rw [Chain.bind_eq_ok]
    constructor
    · rintro ⟨l, hl, h⟩
      split at h
      · next entry he =>
        cases h
        exact ⟨hl, he⟩
      · cases h
    · rintro ⟨hl, hd⟩
      refine ⟨loc, hl, ?_⟩
      rw [hd]
  rw [hlocate]
  unfold locate
  constructor
  · rintro ⟨h, hd⟩
    split_ifs at h with hne hlong
    exact ⟨hne, Nat.lt_of_not_le hlong, (follow_eq_ok_iff.1 h).thin (thin_steps p), hd⟩
  · rintro ⟨hne, hlen, h⟩
    rw [if_neg hne, if_neg (Nat.not_le.2 hlen)]
    exact ⟨follow_eq_ok_iff.2 (h.leads.thick h.directory (thin_steps p)), h.directory⟩

theorem Reaches.stat (h : Reaches fs p loc) (hne : p ≠ []) (hlen : OsText.size p < maxPath) :
    fs.stat p = .ok (loc, .directory) := stat_eq_directory_iff.2 ⟨hne, hlen, h⟩

theorem isDirectory_iff :
    fs.isDirectory p = true ↔ p ≠ [] ∧ OsText.size p < maxPath ∧ ∃ loc, Reaches fs p loc := by
  have hstat : fs.isDirectory p = true ↔ ∃ loc, fs.stat p = .ok (loc, .directory) := by
    unfold isDirectory
    split
    · next loc h => simp [h]
    · next h =>
      simp only [Bool.false_eq_true, false_iff, not_exists]
      exact fun loc hl => h loc hl
  rw [hstat]
  constructor
  · rintro ⟨loc, h⟩
    obtain ⟨hne, hlen, hr⟩ := stat_eq_directory_iff.1 h
    exact ⟨hne, hlen, loc, hr⟩
  · rintro ⟨hne, hlen, loc, hr⟩
    exact ⟨loc, hr.stat hne hlen⟩

/-- A path stands for a file as `stat` finds it, a link to one included. -/
theorem isFile_iff : fs.isFile p = true ↔ ∃ loc content executable, fs.stat p = .ok (loc, .file content executable) := by
  unfold isFile
  split
  · next loc content executable h => simp [h]
  · next h =>
    simp only [Bool.false_eq_true, false_iff, not_exists]
    exact fun loc content executable hl => h loc content executable hl

theorem slot_eq_name_iff {slash : Bool} :
    fs.slot p = .ok (.name dir name slash) ↔ Named fs p dir name ∧ slash = Path.endsWithSlash p := by
  unfold slot slotIn
  constructor
  · intro h
    split_ifs at h with hne hlong
    split at h
    · cases h
    · next last hlast =>
      obtain ⟨pre, hpre⟩ := List.getLast?_eq_some_iff.1 hlast
      rw [hpre, List.dropLast_concat] at h
      obtain ⟨parent, hf, h⟩ := Chain.bind_eq_ok.1 h
      split_ifs at h with hd hdot hdotDot hlong'
      · cases h
      · cases h
      · cases h
        exact ⟨⟨hne, Nat.lt_of_not_le hlong, ⟨pre, hpre, follow_eq_ok_iff.1 hf⟩, not_not.1 hd,
          hdot, hdotDot, Nat.not_lt.1 hlong'⟩, rfl⟩
  · rintro ⟨h, rfl⟩
    obtain ⟨pre, hs, hl⟩ := h.segments
    rw [if_neg h.nonempty, if_neg (Nat.not_le.2 h.short), hs, List.getLast?_concat, List.dropLast_concat]
    refine Chain.bind_eq_ok.2 ⟨dir, hl.follow_eq, ?_⟩
    rw [if_neg (not_not.2 h.directory), if_neg h.lookedUp.notDot, if_neg h.lookedUp.notDotDot,
      if_neg (Nat.not_lt.2 h.lookedUp.short)]

theorem Named.slot (h : Named fs p dir name) : fs.slot p = .ok (.name dir name (Path.endsWithSlash p)) :=
  slot_eq_name_iff.2 ⟨h, rfl⟩

/-- Whatever the file system holds, the place is one under the path's last name. -/
theorem Named.exists_of_slot {s : Slot} (h : Named fs p dir name) (hs : fs'.slot p = .ok s) :
    ∃ dir', s = .name dir' name (Path.endsWithSlash p) := by
  obtain ⟨pre, hpre, -⟩ := h.segments
  unfold FileSystem.slot slotIn at hs
  rw [if_neg h.nonempty, if_neg (Nat.not_le.2 h.short), hpre, List.getLast?_concat, List.dropLast_concat] at hs
  obtain ⟨parent, -, hs⟩ := Chain.bind_eq_ok.1 hs
  rw [if_neg h.lookedUp.notDot, if_neg h.lookedUp.notDotDot] at hs
  split_ifs at hs
  cases hs
  exact ⟨parent, rfl⟩

/-! ## A name below a path -/

theorem Reaches.named (h : Reaches fs base loc) (hn : Path.IsName name)
    (hlen : OsText.size (Path.join base name) < maxPath) (hshort : OsText.size name ≤ fs.nameLimit) :
    Named fs (Path.join base name) loc name := by
  refine ⟨Path.join_ne_nil hn, hlen, ⟨Path.segments base, Path.segments_join hn, ?_⟩, h.directory,
    hn.notDot, hn.notDotDot, hshort⟩
  rw [startOf_join _ hn]
  exact h.leads.thick h.directory (thin_segments base)

/-- The place that a name below a directory's path names, or why it names none. -/
theorem Reaches.slot_join (h : Reaches fs base loc) (hn : Path.IsName name) :
    fs.slot (Path.join base name) =
      if OsText.size (Path.join base name) ≥ maxPath ∨ OsText.size name > fs.nameLimit then .error .nameTooLong
      else .ok (.name loc name false) := by
  have hl := h.leads.thick h.directory (thin_segments base)
  by_cases hlen : OsText.size (Path.join base name) ≥ maxPath
  · rw [if_pos (.inl hlen)]
    unfold slot slotIn
    rw [if_neg (Path.join_ne_nil hn), if_pos hlen]
  by_cases hshort : OsText.size name > fs.nameLimit
  · rw [if_pos (.inr hshort)]
    unfold slot slotIn
    rw [if_neg (Path.join_ne_nil hn), if_neg hlen, Path.segments_join hn, List.getLast?_concat, List.dropLast_concat,
      startOf_join _ hn]
    simp only [hl.follow_eq, bind, Except.bind]
    rw [if_neg (not_not.2 h.directory), if_neg hn.notDot, if_neg hn.notDotDot, if_pos hshort]
  · rw [if_neg (not_or.2 ⟨hlen, hshort⟩), (h.named hn (Nat.lt_of_not_le hlen) (Nat.not_lt.1 hshort)).slot,
      Path.endsWithSlash_join hn]

theorem Named.of_join {name' : OsText} (h : Named fs (Path.join base name) dir name') (hbase : Reaches fs base loc)
    (hn : Path.IsName name) : dir = loc ∧ name' = name := by
  have hs := h.slot
  rw [hbase.slot_join hn] at hs
  split_ifs at hs
  injection hs with hs
  injection hs with hd hn'
  exact ⟨hd.symm, hn'.symm⟩

theorem Named.reaches (h : Named fs p dir name) (he : fs.find? (name :: dir) = some .directory) :
    Reaches fs p (name :: dir) := by
  obtain ⟨pre, hs, hl⟩ := h.names
  refine ⟨?_, he⟩
  rw [hs]
  exact hl.append (.into h.directory h.lookedUp he (by simp) (.here 0 _))

theorem Reaches.join (h : Reaches fs base loc) (hn : Path.IsName name) (hshort : OsText.size name ≤ fs.nameLimit)
    (he : fs.find? (name :: loc) = some .directory) : Reaches fs (Path.join base name) (name :: loc) := by
  refine ⟨?_, he⟩
  rw [startOf_join _ hn, Path.names_join hn]
  exact h.leads.append (.into h.directory ⟨hn.notDot, hn.notDotDot, hshort⟩ he (by simp) (.here 0 _))

/-- What a name below a directory's path stands for, unless it is a link. -/
theorem Reaches.stat_join {entry : Entry} (h : Reaches fs base loc) (hn : Path.IsName name)
    (hshort : OsText.size name ≤ fs.nameLimit) (he : fs.find? (name :: loc) = some entry)
    (hlink : ∀ target, entry ≠ .link target) :
    fs.stat (Path.join base name) =
      if OsText.size (Path.join base name) ≥ maxPath then .error .nameTooLong else .ok (name :: loc, entry) := by
  have hsteps : follow fs maxLinks (startOf fs.workDir (Path.join base name)) (Path.steps (Path.join base name)) =
      .ok (name :: loc) := by
    rw [startOf_join _ hn, Path.steps_join hn, follow_eq_ok_iff]
    apply (h.leads.thick h.directory (thin_segments base)).append
    exact .into h.directory ⟨hn.notDot, hn.notDotDot, hshort⟩ he hlink (.here 0 _)
  unfold FileSystem.stat locate
  rw [if_neg (Path.join_ne_nil hn), hsteps]
  split_ifs with hlong
  · rfl
  · simp only [bind, Except.bind, he]

/-- What a path reaches goes through the directory that the path above it reaches. -/
theorem Reaches.of_join (h : Reaches fs (Path.join base name) loc) (hn : Path.IsName name) :
    ∃ dir, Reaches fs base dir := by
  have hl := h.leads
  rw [startOf_join _ hn, Path.names_join hn] at hl
  obtain ⟨mid, links, -, h₁, h₂⟩ := hl.split
  refine ⟨mid, h₁, ?_⟩
  rcases h₂.start with ⟨-, e⟩ | hd
  · cases e
  · exact hd

/-- A place named below a path stands in the directory that the path stands for. -/
theorem Named.of_join_reaches {name' : OsText} (h : Named fs (Path.join base name) dir name') (hn : Path.IsName name) :
    name' = name ∧ Reaches fs base dir := by
  obtain ⟨pre, hpre, hl⟩ := h.names
  rw [Path.names_join hn] at hpre
  obtain ⟨rfl, hlast⟩ := List.append_inj' hpre rfl
  rw [startOf_join _ hn] at hl
  exact ⟨(List.cons.inj hlast).1.symm, hl, h.directory⟩

/-- A path that stands for a directory is an entry at the place that it names. -/
theorem Named.exists_of_reaches (h : Named fs p dir name) (hr : Reaches fs' p loc)
    (hk : Keeps fs' fs) : fs'.find? (name :: dir) ≠ none := by
  obtain ⟨pre, hs, hl⟩ := h.names
  have hl' := hr.leads
  rw [hs] at hl'
  obtain ⟨mid, links, -, h₁, -⟩ := hl'.split
  have h₁' := h₁.keeps hk
  rw [← hk.workDir] at h₁'
  obtain rfl : mid = dir := h₁'.unique hl
  exact hl'.exists_last h₁ h.lookedUp.notDot h.lookedUp.notDotDot

/-! ## Entries -/

theorem Named.lstat_eq_ok_iff {entry : Entry} (h : Named fs p dir name) (hslash : Path.endsWithSlash p = false) :
    fs.lstat p = .ok (loc, entry) ↔ loc = name :: dir ∧ fs.find? (name :: dir) = some entry := by
  unfold lstat
  rw [h.slot, hslash]
  simp only [bind, Except.bind]
  cases fs.find? (name :: dir) with
  | none => simp
  | some e => simp [eq_comm]

theorem reaches_of_lstat (h : fs.lstat p = .ok (loc, .directory)) : Reaches fs p loc := by
  unfold lstat at h
  obtain ⟨s, hs, h⟩ := Chain.bind_eq_ok.1 h
  split at h
  · next dir name =>
    split at h
    · next entry he =>
      cases h
      exact (slot_eq_name_iff.1 hs).1.reaches he
    · cases h
  · exact (stat_eq_directory_iff.1 h).2.2

theorem stat_of_lstat (h : fs.lstat p = .ok (loc, .directory)) : fs.stat p = .ok (loc, .directory) := by
  have hr := reaches_of_lstat h
  unfold lstat at h
  obtain ⟨s, hs, h⟩ := Chain.bind_eq_ok.1 h
  split at h
  · have hn := (slot_eq_name_iff.1 hs).1
    exact hr.stat hn.nonempty hn.short
  · exact h

/-- A path that stands for a directory names something, which may be a link. -/
theorem exists_lstat_of_stat (h : fs.stat p = .ok (loc, .directory)) : ∃ found, fs.lstat p = .ok found := by
  obtain ⟨hne, hlen, hr⟩ := stat_eq_directory_iff.1 h
  have hl := hr.leads.thick hr.directory (thin_segments p)
  unfold lstat slot slotIn
  rw [if_neg hne, if_neg (Nat.not_le.2 hlen)]
  cases hlast : (Path.segments p).getLast? with
  | none => exact ⟨_, h⟩
  | some last =>
    obtain ⟨pre, hpre⟩ := List.getLast?_eq_some_iff.1 hlast
    rw [hpre] at hl
    obtain ⟨mid, links, -, h₁, h₂⟩ := hl.split
    have hmid : fs.find? mid = some .directory := h₂.start_directory hr.directory
    simp only [hpre, List.dropLast_concat, h₁.follow_eq, bind, Except.bind]
    rw [if_neg (not_not.2 hmid)]
    split_ifs with hdot hdotDot hlong
    · exact ⟨_, h⟩
    · exact ⟨_, h⟩
    · have hshort : OsText.size last ≤ fs.nameLimit := by
        cases h₂ with
        | dot => exact absurd rfl hdot
        | dotDot => exact absurd rfl hdotDot
        | link _ hn => exact hn.short
        | into _ hn => exact hn.short
      omega
    · cases hs : Path.endsWithSlash p with
      | true => exact ⟨_, h⟩
      | false =>
        cases hf : fs.find? (last :: mid) with
        | none => exact absurd hf (hl.exists_last h₁ hdot hdotDot)
        | some entry => exact ⟨(last :: mid, entry), by simp only [hf]⟩

/-- What a path names is the directory that it stands for, or a link. -/
theorem lstat_of_stat {found : Location × Entry} (h : fs.stat p = .ok (loc, .directory))
    (hl : fs.lstat p = .ok found) : found = (loc, .directory) ∨ ∃ dir name target, Named fs p dir name ∧
      Path.endsWithSlash p = false ∧ fs.find? (name :: dir) = some (.link target) ∧
      found = (name :: dir, .link target) := by
  unfold lstat at hl
  obtain ⟨s, hs, hl⟩ := Chain.bind_eq_ok.1 hl
  split at hl
  · next dir name =>
    obtain ⟨hn, hslash⟩ := slot_eq_name_iff.1 hs
    split at hl
    · next entry he =>
      cases hl
      cases entry with
      | directory =>
        have hs' := (hn.reaches he).stat hn.nonempty hn.short
        rw [h] at hs'
        cases hs'
        exact .inl rfl
      | link target => exact .inr ⟨dir, name, target, hn, hslash.symm, he, rfl⟩
      | file content executable =>
        obtain ⟨pre, hpre, hpl⟩ := hn.names
        have hleads := (stat_eq_directory_iff.1 h).2.2.leads
        rw [hpre] at hleads
        obtain ⟨mid, links, -, h₁, h₂⟩ := hleads.split
        obtain rfl : mid = dir := h₁.unique hpl
        have hdir := (stat_eq_directory_iff.1 h).2.2.directory
        cases h₂ with
        | dot => exact absurd rfl hn.lookedUp.notDot
        | dotDot => exact absurd rfl hn.lookedUp.notDotDot
        | link _ _ he' =>
          rw [he] at he'
          cases he'
        | into _ _ _ _ hrest =>
          cases hrest
          rw [he] at hdir
          cases hdir
    · cases hl
  · rw [h] at hl
    cases hl
    exact .inl rfl

/-- What is there below a path stands in the directory that the path stands for. -/
theorem exists_of_pathExists_join (hbase : base ≠ []) (hn : Path.IsName name)
    (h : fs.pathExists (Path.join base name) = true) :
    ∃ loc, fs.stat base = .ok (loc, .directory) ∧ fs.find? (name :: loc) ≠ none := by
  unfold pathExists at h
  split at h
  · next found hstat =>
    unfold stat at hstat
    obtain ⟨loc, hlocate, -⟩ := Chain.bind_eq_ok.1 hstat
    unfold locate at hlocate
    split_ifs at hlocate with hne hlong
    rw [Path.steps_join hn, follow_eq_ok_iff, startOf_join _ hn] at hlocate
    obtain ⟨mid, links, -, h₁, h₂⟩ := hlocate.split
    have hmid : fs.find? mid = some .directory := by
      rcases h₂.start with ⟨-, e⟩ | hd
      · cases e
      · exact hd
    have hlen := Nat.lt_of_le_of_lt (Path.size_le_join base hn) (Nat.lt_of_not_le hlong)
    have hr : Reaches fs base mid := ⟨h₁.thin (thin_segments base), hmid⟩
    exact ⟨mid, hr.stat hbase hlen, hlocate.exists_last h₁ hn.notDot hn.notDotDot⟩
  · cases h

end

end ThriftModules.FileSystem
