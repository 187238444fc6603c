import ThriftModules.Proofs.FileSystem.Walked
import ThriftModules.Proofs.Idl.Resolved
import ThriftModules.Proofs.Output.Listed
import ThriftModules.Proofs.Text.Sites

/-!
# The sources and the include directories of a run

Both are found by a walk from the input: the sources are its regular files, the include directories its directories.

* `exists_searchPath` : the search path holds all directories below the input, and the input unless it is a link;
* `directory_walks` : from a directory, both lists are complete, ordered and without repetition, and an include resolves
  to the first directory that holds a file of its name;
* `listed_source_includable` : from a path that stands for a directory, possibly over links, a listed source can be
  included from the directory that holds it, unless this is the input and the input is a link;
* `link_input_not_searched` : a source in an input that is a link cannot be included.
-/

namespace ThriftModules.Run

set_option autoImplicit false

open FileSystem (Enumerates Precedes Reaches dirsBelow mem_dirsBelow dirsBelow_sorted place_concat precedes_iff
  precedes_append)
open Idl (SearchPath isName_fileOf resolve_eq_ok_iff resolve_eq_error_iff)
open Output (filesBelow filesBelow_sorted hasSuffix_iff listFiles listFiles_of_stat mem_filesBelow)

section
variable {fs : FileSystem} {root : Path} {top : Location} {name : Text} {names : List OsText}

/-! ## Include directories -/

/-- The search path of a path that stands for a directory: all directories below it, and the path itself unless it
names a link. -/
theorem discover_of_stat (hwf : fs.WellFormed) (h : fs.stat root = .ok (top, .directory)) :
    ∃ ways : List (List OsText), SearchPath.discover fs root = .ok ⟨ways.map (·.foldl Path.join root)⟩ ∧
      ways.Pairwise Precedes ∧ ∀ names, names ∈ ways ↔
        fs.find? (names.reverse ++ top) = some .directory ∧ (names = [] → fs.lstat root = .ok (top, .directory)) := by
  have htop := (FileSystem.stat_eq_directory_iff.1 h).2.2.directory
  obtain ⟨found, hfound⟩ := FileSystem.exists_lstat_of_stat h
  unfold SearchPath.discover
  rcases FileSystem.lstat_of_stat h hfound with rfl | ⟨dir, last, target, -, -, -, rfl⟩
  · refine ⟨[] :: dirsBelow fs top, by rw [FileSystem.walkedDirs_of_lstat hwf hfound], ?_, fun names => ?_⟩
    · refine List.pairwise_cons.2 ⟨fun names hn => ?_, dirsBelow_sorted fs top⟩
      exact precedes_append [] ((mem_dirsBelow hwf).1 hn).1
    · rw [List.mem_cons, mem_dirsBelow hwf]
      by_cases hn : names = []
      · simp [hn, htop, hfound]
      · simp [hn]
  · refine ⟨dirsBelow fs top, by rw [FileSystem.walkedDirs_of_link hwf hfound h], dirsBelow_sorted fs top,
      fun names => ?_⟩
    rw [mem_dirsBelow hwf, hfound]
    simp [and_comm]

/-- The search path of a path that stands for a directory starts with the path exactly if this names no link, and holds
all directories below it. -/
theorem exists_searchPath (hwf : fs.WellFormed) (h : fs.stat root = .ok (top, .directory)) :
    ∃ search, SearchPath.discover fs root = .ok search ∧
      (search.dirs.head? = some root ↔ fs.lstat root = .ok (top, .directory)) ∧
      ∀ names : List OsText, fs.find? (names.reverse ++ top) = some .directory →
        (names.foldl Path.join root ∈ search.dirs ↔ names ≠ [] ∨ fs.lstat root = .ok (top, .directory)) := by
  obtain ⟨ways, hdiscover, hsorted, hways⟩ := discover_of_stat hwf h
  have htop := (FileSystem.stat_eq_directory_iff.1 h).2.2.directory
  have hthere : ∀ {names : List OsText}, fs.find? (names.reverse ++ top) = some .directory →
      fs.find? (names.reverse ++ top) ≠ none := fun hd e => nomatch hd.symm.trans e
  have hmem : ∀ names : List OsText, fs.find? (names.reverse ++ top) = some .directory →
      (names.foldl Path.join root ∈ ways.map (·.foldl Path.join root) ↔
        names ≠ [] ∨ fs.lstat root = .ok (top, .directory)) := by
    intro names hd
    rw [FileSystem.foldl_join_mem_iff hwf (fun way hway => hthere ((hways way).1 hway).1) (hthere hd), hways,
      and_iff_right hd]
    exact Decidable.imp_iff_not_or
  refine ⟨_, hdiscover, ⟨fun hfirst => ?_, fun hroot => ?_⟩, hmem⟩
  · exact ((hmem [] htop).1 (List.mem_of_mem_head? hfirst)).resolve_left (fun e => e rfl)
  · rw [List.head?_map, FileSystem.head?_eq_nil hsorted ((hways []).2 ⟨htop, fun _ => hroot⟩)]
    rfl

/-- The directory that `names` lead to from `root` holds a file of the included name, or a link to one. -/
def HoldsInclude (fs : FileSystem) (root : Path) (name : Text) (names : List OsText) : Prop :=
  ∃ place content executable, fs.stat (Path.join (names.foldl Path.join root) (SearchPath.fileOf name)) =
    .ok (place, .file content executable)

theorem isFile_eq_false_iff :
    fs.isFile (Path.join (names.foldl Path.join root) (SearchPath.fileOf name)) = false ↔
      ¬HoldsInclude fs root name names := by
  rw [HoldsInclude, ← FileSystem.isFile_iff, Bool.not_eq_true]

/-- An include resolves to the first directory of an ordered search path that holds a file of its name. -/
theorem resolve_of_sorted {ways : List (List OsText)} (h : ways.Pairwise Precedes) {p : Path} :
    (SearchPath.mk (ways.map (·.foldl Path.join root))).resolve fs name = .ok p ↔
      ∃ names ∈ ways, HoldsInclude fs root name names ∧
        (∀ other ∈ ways, Precedes other names → ¬HoldsInclude fs root name other) ∧
        p = Path.join (names.foldl Path.join root) (SearchPath.fileOf name) := by
  rw [resolve_eq_ok_iff]
  constructor
  · rintro ⟨front, dir, back, hdirs, rfl, hfile, hfront⟩
    obtain ⟨before, rest, rfl, rfl, hrest⟩ := List.map_eq_append_iff.1 hdirs
    obtain ⟨names, after, rfl, rfl, -⟩ := List.map_eq_cons_iff.1 hrest
    refine ⟨names, by simp, FileSystem.isFile_iff.1 hfile, fun other ho hlt => isFile_eq_false_iff.1 ?_, rfl⟩
    exact hfront _ (List.mem_map_of_mem ((FileSystem.mem_before_iff h).2 ⟨ho, hlt⟩))
  · rintro ⟨names, hn, hholds, hothers, rfl⟩
    obtain ⟨before, after, rfl⟩ := List.append_of_mem hn
    refine ⟨before.map _, _, after.map _, by rw [List.map_append, List.map_cons], rfl,
      FileSystem.isFile_iff.2 hholds, fun dir hdir => ?_⟩
    obtain ⟨other, ho, rfl⟩ := List.mem_map.1 hdir
    obtain ⟨ho, hlt⟩ := (FileSystem.mem_before_iff h).1 ho
    exact isFile_eq_false_iff.2 (hothers other ho hlt)

/-- A regular file that the names lead to, the last of which is the encoding of a text that ends in the suffix. -/
def IsListing (suffix : Text) (names : List OsText) (entry : Entry) : Prop :=
  (∃ above name text, names = above ++ [name] ∧ name.bytes = Text.Utf8.encode text ∧ suffix <:+ text) ∧
    ∃ content executable, entry = .file content executable

theorem enumerates_filesBelow (hwf : fs.WellFormed) (root : Path) (top : Location) (suffix : Text) :
    Enumerates fs root top (IsListing suffix)
      ((filesBelow fs suffix top).map fun f => f.1.foldl Path.join root) := by
  refine ⟨(filesBelow fs suffix top).map (·.1), by rw [List.map_map]; rfl, ?_, fun names => ?_⟩
  · rw [List.pairwise_map]
    exact (filesBelow_sorted fs suffix top).imp precedes_iff.2
  · constructor
    · intro h
      obtain ⟨⟨_, content⟩, hf, rfl⟩ := List.mem_map.1 h
      obtain ⟨above, name, executable, rfl, hs, he⟩ := (mem_filesBelow hwf).1 hf
      obtain ⟨text, htext, hs⟩ := hasSuffix_iff.1 hs
      exact ⟨_, by rw [place_concat, he], ⟨above, name, text, rfl, htext, hs⟩, content, executable, rfl⟩
    · rintro ⟨_, he, ⟨above, name, text, rfl, htext, hs⟩, content, executable, rfl⟩
      rw [place_concat] at he
      refine List.mem_map.2 ⟨(above ++ [name], content), ?_, rfl⟩
      exact (mem_filesBelow hwf).2 ⟨above, name, executable, rfl, hasSuffix_iff.2 ⟨text, htext, hs⟩, he⟩

/-- Walks from a directory. The search path holds the directory and all directories below it, links not followed: each
once, by the bytes of the names on the way, the directory itself first and each one in front of those below it. The
files whose name is a text that ends in a suffix are listed in the same way. An include resolves to the first directory
that holds a file of its name, and fails if and only if there is none. -/
theorem directory_walks (fs : FileSystem) (root : Path) (top : Location) (hwf : fs.WellFormed)
    (hroot : fs.lstat root = .ok (top, .directory)) :
    ∃ dirs, SearchPath.discover fs root = .ok ⟨dirs⟩ ∧ dirs.head? = some root ∧ dirs.Nodup ∧
      Enumerates fs root top (fun _ entry => entry = .directory) dirs ∧
      (∀ above below : List OsText, below ≠ [] → fs.find? ((above ++ below).reverse ++ top) = some .directory →
        [above.foldl Path.join root, (above ++ below).foldl Path.join root].Sublist dirs) ∧
      (∀ suffix, ∃ files, listFiles fs root suffix = .ok files ∧ files.Nodup ∧
        Enumerates fs root top (IsListing suffix) files) ∧
      ∀ name,
        (∀ p, (SearchPath.mk dirs).resolve fs name = .ok p ↔
          ∃ names : List OsText, fs.find? (names.reverse ++ top) = some .directory ∧ HoldsInclude fs root name names ∧
            (∀ other : List OsText, fs.find? (other.reverse ++ top) = some .directory → Precedes other names →
              ¬HoldsInclude fs root name other) ∧
            p = Path.join (names.foldl Path.join root) (SearchPath.fileOf name)) ∧
        ∀ e, (SearchPath.mk dirs).resolve fs name = .error e ↔ e = .unresolved name ∧
          ∀ names : List OsText, fs.find? (names.reverse ++ top) = some .directory → ¬HoldsInclude fs root name names := by
  have hstat := FileSystem.stat_of_lstat hroot
  obtain ⟨ways, hdiscover, hsorted, hways⟩ := discover_of_stat hwf hstat
  have hmem : ∀ names, names ∈ ways ↔ fs.find? (names.reverse ++ top) = some .directory := by
    intro names
    rw [hways]
    exact and_iff_left fun _ => hroot
  have hdirs : Enumerates fs root top (fun _ entry => entry = .directory) (ways.map (·.foldl Path.join root)) := by
    refine ⟨_, rfl, hsorted, fun names => ?_⟩
    rw [hmem]
    simp
  refine ⟨_, hdiscover, ?_, hdirs.nodup hwf, hdirs, fun above below hb hd => ?_, fun suffix => ?_,
    fun name => ⟨fun p => ?_, fun e => ?_⟩⟩
  · rw [List.head?_map, FileSystem.head?_eq_nil hsorted ((hmem []).2 (FileSystem.reaches_of_lstat hroot).directory)]
    rfl
  · have hplace : (above ++ below).reverse ++ top = below.reverse ++ (above.reverse ++ top) := by simp
    have habove : fs.find? (above.reverse ++ top) = some .directory :=
      hwf.above (FileSystem.isBelow_iff.2 ⟨below.reverse, by simpa using hb, hplace⟩) (by rw [hd]; simp)
    exact (FileSystem.pair_sublist hsorted ((hmem above).2 habove) ((hmem _).2 hd) (precedes_append above hb)).map _
  · have hfiles := enumerates_filesBelow hwf root top suffix
    exact ⟨_, listFiles_of_stat hwf hstat, hfiles.nodup hwf, hfiles⟩
  · rw [resolve_of_sorted hsorted]
    simp only [hmem]
  · rw [resolve_eq_error_iff]
    simp only [List.forall_mem_map, isFile_eq_false_iff, hmem]

end

/-- A directory `a-b` beside `a/b`, which comes first here and would come last by its path, with a link to the file of
the other. -/
def forkedFiles : FileSystem :=
  { FileSystem.bare [] with
    entries := [(["a-b".toList, "idl".toList], .directory), (["idl".toList], .directory),
      (["t.thrift".toList, "a-b".toList, "idl".toList], .file (.text []) false),
      (["c".toList, "idl".toList], .link "a".toList), (["a".toList, "idl".toList], .directory),
      (["b".toList, "a".toList, "idl".toList], .directory),
      (["t.thrift".toList, "b".toList, "a".toList, "idl".toList], .link "../../a-b/t.thrift".toList)] }

theorem directory_walks_forked :
    Enumerates forkedFiles "idl".toList ["idl".toList] (fun _ entry => entry = .directory)
      ["idl".toList, "idl/a".toList, "idl/a/b".toList, "idl/a-b".toList] ∧
    ∃ names : List OsText, HoldsInclude forkedFiles "idl".toList "t".toList names ∧
      "idl/a/b/t.thrift".toList = Path.join (names.foldl Path.join "idl".toList) (SearchPath.fileOf "t".toList) := by
  have hwf : forkedFiles.WellFormed := FileSystem.wellFormed_of_entries (by decide +kernel)
  have hroot : forkedFiles.lstat "idl".toList = .ok (["idl".toList], .directory) := by decide +kernel
  have hdiscover : SearchPath.discover forkedFiles "idl".toList =
      .ok ⟨["idl".toList, "idl/a".toList, "idl/a/b".toList, "idl/a-b".toList]⟩ := by decide +kernel
  obtain ⟨dirs, hdirs, -, -, henumerates, -, -, hresolve⟩ := directory_walks _ _ _ hwf hroot
  obtain rfl : dirs = _ := congrArg SearchPath.dirs (Except.ok.inj (hdirs.symm.trans hdiscover))
  obtain ⟨names, -, hholds, -, hp⟩ := ((hresolve "t".toList).1 "idl/a/b/t.thrift".toList).1 (by decide +kernel)
  exact ⟨henumerates, names, hholds, hp⟩

/-- A file with a name that no text is encoded as. -/
def foreignFiles : FileSystem :=
  { FileSystem.bare [] with
    entries := [(["idl".toList], .directory), (["\xff.thrift".toList, "idl".toList], .file (.text []) false)] }

/-- A file is passed over, whatever its name ends in, if the name is not the encoding of a text. -/
theorem foreign_name_not_listed :
    ¬∀ (fs : FileSystem) (root : Path) (top : Location) (suffix : Text), fs.WellFormed →
      fs.lstat root = .ok (top, .directory) → ∃ files, listFiles fs root suffix = .ok files ∧
        Enumerates fs root top (fun names entry =>
          (∃ above name, names = above ++ [name] ∧ OsText.ofText suffix <:+ name) ∧
            ∃ content executable, entry = .file content executable) files := by
  intro h
  obtain ⟨files, hfiles, ways, hways, -, hmem⟩ := h foreignFiles "idl".toList ["idl".toList] ".thrift".toList
    (FileSystem.wellFormed_of_entries (by decide +kernel)) (by decide +kernel)
  have hnone : listFiles foreignFiles "idl".toList ".thrift".toList = .ok [] := by decide +kernel
  obtain rfl : ways = [] := by simpa [hways] using hfiles.symm.trans hnone
  refine List.not_mem_nil ((hmem ["\xff.thrift".toList]).2 ⟨.file (.text []) false, by decide +kernel, ?_, _, _, rfl⟩)
  exact ⟨[], _, rfl, by decide +kernel⟩

/-! ## Sources that can be included -/

section
variable {fs : FileSystem} {root : Path} {top : Location} {name : Text} {names : List OsText}

/-- A regular file of the included name is held by the directory that it stands in, unless its path is too long. -/
theorem holdsInclude_of_find? (hwf : fs.WellFormed) (h : Reaches fs root top)
    (hname : ∀ c ∈ name, Text.isWordChar c = true) {content : Content} {executable : Bool}
    (hf : fs.find? (SearchPath.fileOf name :: (names.reverse ++ top)) = some (.file content executable))
    (hlen : OsText.size (Path.join (names.foldl Path.join root) (SearchPath.fileOf name)) < FileSystem.maxPath) :
    HoldsInclude fs root name names := by
  have hthere : fs.find? (SearchPath.fileOf name :: (names.reverse ++ top)) ≠ none := by simp [hf]
  refine ⟨SearchPath.fileOf name :: (names.reverse ++ top), content, executable, ?_⟩
  rw [(h.foldl_join hwf (hwf.parent _ _ hthere)).stat_join (isName_fileOf hname) (hwf.short _ _ hthere) hf (by simp),
    if_neg (Nat.not_le.2 hlen)]

/-- A listed source `name.thrift` and the search path of its run, where the input stands for a directory, possibly over
links. The search path starts with the input, and holds the directory of the source, exactly if the input itself is a
directory and no link; below a link only a source in the input itself is lost. From a directory that is searched the
source can be included, as long as its path is not too long. -/
theorem listed_source_includable (fs : FileSystem) (input : Path) (top : Location) (name : Text) (files : List Path)
    (file : Path) (hwf : fs.WellFormed) (hinput : fs.stat input = .ok (top, .directory))
    (hname : ∀ c ∈ name, Text.isWordChar c = true) (hfiles : listFiles fs input [] = .ok files) (hfile : file ∈ files)
    (hcalled : Path.fileName file = SearchPath.fileOf name) :
    ∃ (search : SearchPath) (names : List OsText), SearchPath.discover fs input = .ok search ∧
      file = Path.join (names.foldl Path.join input) (SearchPath.fileOf name) ∧
      (∃ content executable,
        fs.find? (SearchPath.fileOf name :: (names.reverse ++ top)) = some (.file content executable)) ∧
      (search.dirs.head? = some input ↔ fs.lstat input = .ok (top, .directory)) ∧
      (names.foldl Path.join input ∈ search.dirs ↔ names ≠ [] ∨ fs.lstat input = .ok (top, .directory)) ∧
      (names.foldl Path.join input ∈ search.dirs → OsText.size file < FileSystem.maxPath →
        ∃ p, search.resolve fs name = .ok p) := by
  obtain ⟨search, hdiscover, hfirst, hsearched⟩ := exists_searchPath hwf hinput
  -- the names that lead to the file
  rw [listFiles_of_stat hwf hinput] at hfiles
  cases hfiles
  obtain ⟨⟨_, content⟩, hmem, rfl⟩ := List.mem_map.1 hfile
  obtain ⟨names, last, executable, rfl, -, hf⟩ := (mem_filesBelow hwf).1 hmem
  have hthere : fs.find? (last :: (names.reverse ++ top)) ≠ none := by simp [hf]
  simp only [List.foldl_append, List.foldl_cons, List.foldl_nil] at hcalled ⊢
  rw [FileSystem.fileName_join (hwf.name _ _ hthere)] at hcalled
  subst hcalled
  refine ⟨search, names, hdiscover, rfl, ⟨content, executable, hf⟩, hfirst, hsearched names (hwf.parent _ _ hthere),
    fun hdir hlen => Idl.exists_resolve_eq_ok hdir (FileSystem.isFile_iff.2 ?_)⟩
  exact holdsInclude_of_find? hwf (FileSystem.stat_eq_directory_iff.1 hinput).2.2 hname hf hlen

end

/-- The input is a link to a directory with a source in it and another one below. -/
def linkedInput : FileSystem :=
  { FileSystem.bare [] with
    entries := [(["idl".toList], .link "real".toList), (["real".toList], .directory),
      (["t.thrift".toList, "real".toList], .file (.text []) false), (["sub".toList, "real".toList], .directory),
      (["u.thrift".toList, "sub".toList, "real".toList], .file (.text []) false)] }

theorem linkedInput_wellFormed : linkedInput.WellFormed := FileSystem.wellFormed_of_entries (by decide +kernel)

theorem linkedInput_stat : linkedInput.stat "idl".toList = .ok (["real".toList], .directory) := by decide +kernel

theorem linkedInput_files :
    listFiles linkedInput "idl".toList [] = .ok ["idl/sub/u.thrift".toList, "idl/t.thrift".toList] := by decide +kernel

theorem linkedInput_dirs : SearchPath.discover linkedInput "idl".toList = .ok ⟨["idl/sub".toList]⟩ := by decide +kernel

theorem listed_source_includable_below_link :
    ∃ p, (SearchPath.mk ["idl/sub".toList]).resolve linkedInput "u".toList = .ok p := by
  obtain ⟨search, names, hsearch, hfile, -, -, hdir, hresolve⟩ := listed_source_includable linkedInput "idl".toList
    ["real".toList] "u".toList _ "idl/sub/u.thrift".toList linkedInput_wellFormed linkedInput_stat (by decide)
    linkedInput_files (by decide) (by decide)
  obtain rfl : search = _ := Except.ok.inj (hsearch.symm.trans linkedInput_dirs)
  have hnames : names ≠ [] := by
    rintro rfl
    exact absurd hfile (by decide)
  exact hresolve (hdir.2 (.inl hnames)) (by decide)

/-- A source in an input that is a link cannot be included, and the input itself is not searched. -/
theorem link_input_not_searched : ¬∀ (fs : FileSystem) (input : Path) (top : Location) (name : Text)
    (files : List Path) (file : Path), fs.WellFormed → fs.stat input = .ok (top, .directory) →
      (∀ c ∈ name, Text.isWordChar c = true) → listFiles fs input [] = .ok files → file ∈ files →
      Path.fileName file = SearchPath.fileOf name →
      ∃ (search : SearchPath) (dir : Path), SearchPath.discover fs input = .ok search ∧
        file = Path.join dir (SearchPath.fileOf name) ∧ dir ∈ search.dirs ∧ search.dirs.head? = some input ∧
        ∃ p, search.resolve fs name = .ok p := by
  intro h
  obtain ⟨search, -, hsearch, -, -, -, p, hp⟩ := h linkedInput "idl".toList ["real".toList] "t".toList _
    "idl/t.thrift".toList linkedInput_wellFormed linkedInput_stat (by decide) linkedInput_files (by decide) (by decide)
  obtain rfl : search = _ := Except.ok.inj (hsearch.symm.trans linkedInput_dirs)
  have hnone : (SearchPath.mk ["idl/sub".toList]).resolve linkedInput "t".toList = .error (.unresolved "t".toList) := by
    decide +kernel
  cases hp.symm.trans hnone

end ThriftModules.Run
