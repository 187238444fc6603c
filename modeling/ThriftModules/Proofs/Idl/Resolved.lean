import ThriftModules.Idl.SearchPath
import ThriftModules.Proofs.Chain
import ThriftModules.Proofs.FileSystem.OsText
import ThriftModules.Proofs.FileSystem.Visited
import ThriftModules.Proofs.Idl.Included

/-!
# The names of resolved includes

* `mem_ofEdges` : the includes made of edges hold no other edge;
* `name_of_resolveInclude` : an include resolves to an edge of its own name;
* `isWordChar_of_mem_includes` : an include name is a word, and so is the name of every edge that was resolved
  (`isWordChar_of_resolved`);
* `resolve_eq_ok_iff`, `resolve_eq_error_iff` : an include stands for the first file of its name, if there is one;
* `exists_of_resolved` : a resolved include stands for a file of its name in a searched directory;
* `resolveIncludes_congr` : includes resolve alike where the files that they can stand for are looked up alike.
-/

namespace ThriftModules.Idl

set_option autoImplicit false

theorem mem_foldl_insertEdge {x : Edge} {edges : List Edge} {includes : Includes}
    (h : x ∈ (edges.foldl Includes.insert includes).edges) : x ∈ edges ∨ x ∈ includes.edges := by
  induction edges generalizing includes with
  | nil => exact Or.inr h
  | cons edge edges ih =>
    rcases ih h with h | h
    · exact Or.inl (List.mem_cons_of_mem _ h)
    · rcases mem_insertEdge h with rfl | h
      · exact Or.inl List.mem_cons_self
      · exact Or.inr h

theorem mem_ofEdges {x : Edge} {edges : List Edge} (h : x ∈ (Includes.ofEdges edges).edges) : x ∈ edges :=
  (mem_foldl_insertEdge h).resolve_right (by simp [Includes.empty])

theorem isWordChar_of_mem_includes {s : Source} {name : Text} (h : name ∈ s.includes) :
    ∀ c ∈ name, Text.isWordChar c = true := by
  obtain ⟨line, -, hline⟩ := List.mem_flatMap.1 (NameSet.mem_ofList.1 h)
  obtain ⟨tail, -, htail⟩ := List.mem_filterMap.1 hline
  exact (includeTarget?_eq_some_iff.1 htail).1.2

theorem name_of_resolveInclude {search : SearchPath} {fs : FileSystem} {name : Text} {edge : Edge}
    (h : resolveInclude search fs name = .ok edge) : edge.name = name := by
  obtain ⟨path, -, h⟩ := Chain.bind_eq_ok.1 h
  obtain ⟨included, -, h⟩ := Chain.bind_eq_ok.1 h
  obtain ⟨target, -, h⟩ := Chain.bind_eq_ok.1 h
  cases h
  rfl

theorem namespace?_of_ownNamespace {s : Source} {origin : Text} {ns : Namespace} (h : s.ownNamespace origin = .ok ns) :
    s.namespace? = .ok ns := by
  unfold Source.ownNamespace at h
  split at h <;> cases h
  assumption

theorem isWordChar_of_resolved {search : SearchPath} {fs : FileSystem} {s : Source} {includes : Includes}
    (h : resolveIncludes search fs s = .ok includes) {edge : Edge} (he : edge ∈ includes.edges) :
    ∀ c ∈ edge.name, Text.isWordChar c = true := by
  obtain ⟨edges, hedges, h⟩ := Chain.bind_eq_ok.1 h
  cases h
  obtain ⟨name, hname, hresolve⟩ := Chain.exists_of_mem_mapM hedges (mem_ofEdges he)
  rw [name_of_resolveInclude hresolve]
  exact isWordChar_of_mem_includes hname

theorem ascii_of_isWordChar {name : Text} (h : ∀ c ∈ name, Text.isWordChar c = true) : ∀ c ∈ name, c.toNat < 128 :=
  fun c hc => Nat.lt_of_le_of_lt (Text.toNat_of_isWordChar (h c hc)).2 (by decide)

theorem fileOf_of_isWordChar {name : Text} (h : ∀ c ∈ name, Text.isWordChar c = true) :
    SearchPath.fileOf name = name ++ ".thrift".toList := by
  rw [SearchPath.fileOf, OsText.ofText_of_ascii (ascii_of_isWordChar h)]

theorem isName_fileOf {name : Text} (h : ∀ c ∈ name, Text.isWordChar c = true) :
    Path.IsName (SearchPath.fileOf name) := by
  rw [fileOf_of_isWordChar h]
  exact Path.isName_append (fun hslash => absurd (h '/' hslash) (by decide)) (by decide) (by decide)

section
variable {search : SearchPath} {fs : FileSystem} {name : Text} {p : Path}

/-- An include stands for the file of its name in the first directory that holds one. -/
theorem resolve_eq_ok_iff : search.resolve fs name = .ok p ↔ ∃ before dir after, search.dirs = before ++ dir :: after ∧
    p = Path.join dir (SearchPath.fileOf name) ∧ fs.isFile p = true ∧
    ∀ d ∈ before, fs.isFile (Path.join d (SearchPath.fileOf name)) = false := by
  have hfind : search.resolve fs name = .ok p ↔
      ((search.dirs.map (Path.join · (SearchPath.fileOf name))).find? fs.isFile) = some p := by
    unfold SearchPath.resolve
    split
    · next hf => simp [hf]
    · next hf => simp [hf]
  rw [hfind, List.find?_map, Option.map_eq_some_iff]
  constructor
  · rintro ⟨dir, hdir, rfl⟩
    obtain ⟨hfile, before, after, hdirs, hbefore⟩ := List.find?_eq_some_iff_append.1 hdir
    exact ⟨before, dir, after, hdirs, rfl, hfile, fun d hd => by simpa using hbefore d hd⟩
  · rintro ⟨before, dir, after, hdirs, rfl, hfile, hbefore⟩
    refine ⟨dir, List.find?_eq_some_iff_append.2 ⟨hfile, before, after, hdirs, fun d hd => ?_⟩, rfl⟩
    simpa using hbefore d hd

theorem resolve_eq_error_iff {e : SourceError} : search.resolve fs name = .error e ↔
    e = .unresolved name ∧ ∀ d ∈ search.dirs, fs.isFile (Path.join d (SearchPath.fileOf name)) = false := by
  have hnone : (∀ d ∈ search.dirs, fs.isFile (Path.join d (SearchPath.fileOf name)) = false) ↔
      (search.dirs.map (Path.join · (SearchPath.fileOf name))).find? fs.isFile = none := by simp
  rw [hnone]
  unfold SearchPath.resolve
  split
  · next hf => simp [hf]
  · next hf => simp [hf, eq_comm]

/-- A file of the included name in a searched directory is enough to resolve the include. -/
theorem exists_resolve_eq_ok {dir : Path} (hdir : dir ∈ search.dirs)
    (h : fs.isFile (Path.join dir (SearchPath.fileOf name)) = true) : ∃ p, search.resolve fs name = .ok p := by
  cases hr : search.resolve fs name with
  | ok p => exact ⟨p, rfl⟩
  | error e =>
    rw [(resolve_eq_error_iff.1 hr).2 dir hdir] at h
    cases h

theorem exists_dir_of_resolve (h : search.resolve fs name = .ok p) :
    ∃ dir ∈ search.dirs, p = Path.join dir (SearchPath.fileOf name) := by
  obtain ⟨before, dir, after, hdirs, hp, -, -⟩ := resolve_eq_ok_iff.1 h
  exact ⟨dir, by simp [hdirs], hp⟩

end

theorem readSource_congr {fs fs' : FileSystem} {p : Path} (h : fs'.stat p = fs.stat p) :
    readSource fs' p = readSource fs p := by
  unfold readSource
  rw [FileSystem.readText_congr h]

/-- An include resolves alike where all files that it can stand for are looked up alike. -/
theorem resolveInclude_congr {search : SearchPath} {fs fs' : FileSystem} {name : Text}
    (h : ∀ dir ∈ search.dirs, fs'.stat (Path.join dir (SearchPath.fileOf name)) =
      fs.stat (Path.join dir (SearchPath.fileOf name))) :
    resolveInclude search fs' name = resolveInclude search fs name := by
  have hfind : ∀ dirs ⊆ search.dirs, (dirs.map (Path.join · (SearchPath.fileOf name))).find? fs'.isFile =
      (dirs.map (Path.join · (SearchPath.fileOf name))).find? fs.isFile := by
    intro dirs hdirs
    induction dirs with
    | nil => rfl
    | cons dir dirs ih =>
      rw [List.map_cons, List.find?_cons, List.find?_cons,
        FileSystem.isFile_congr (h dir (hdirs List.mem_cons_self)), ih fun d hd => hdirs (List.mem_cons_of_mem dir hd)]
  have hresolve : search.resolve fs' name = search.resolve fs name := by
    unfold SearchPath.resolve
    rw [hfind search.dirs (List.Subset.refl _)]
  unfold resolveInclude
  rw [hresolve]
  cases hr : search.resolve fs name with
  | error e => rfl
  | ok path =>
    have hpath : fs'.stat path = fs.stat path := by
      obtain ⟨dir, hdir, rfl⟩ := exists_dir_of_resolve hr
      exact h dir hdir
    simp only [bind, Except.bind, readSource_congr hpath]

theorem resolveIncludes_congr {search : SearchPath} {fs fs' : FileSystem} {source : Source}
    (h : ∀ name ∈ source.includes, ∀ dir ∈ search.dirs, fs'.stat (Path.join dir (SearchPath.fileOf name)) =
      fs.stat (Path.join dir (SearchPath.fileOf name))) :
    resolveIncludes search fs' source = resolveIncludes search fs source := by
  unfold resolveIncludes
  rw [Chain.mapM_congr fun name hname => resolveInclude_congr (h name (NameSet.mem_def.2 hname))]

end ThriftModules.Idl
