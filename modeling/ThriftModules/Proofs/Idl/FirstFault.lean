import ThriftModules.Proofs.Idl.Declared
import ThriftModules.Proofs.Idl.Resolved
import ThriftModules.Proofs.Text.ByteOrder

/-!
# Includes that resolve, and the first that does not

* `StandsFor` : an include stands for the file of its name in the first directory that holds one;
* `IsGood` : the file is a text that declares one namespace; `Fault` : the failure of an include that is not good, at its
  first failing step;
* `resolveInclude_eq_ok_iff`, `resolveInclude_eq_error_iff` : an include resolves exactly if it is good, and fails with
  its fault otherwise;
* `edges_ofEdges` : edges in the order of their names stay as they are, each of them;
* `resolveIncludes_exact` : the includes of a source resolve exactly if all are good, else the first fault by name is
  reported.
-/

namespace ThriftModules.Idl

set_option autoImplicit false

/-- The include stands for the file of its name in the first directory that holds one. -/
def StandsFor (search : SearchPath) (fs : FileSystem) (name : Text) (path : Path) : Prop :=
  ∃ before dir after, search.dirs = before ++ dir :: after ∧ path = Path.join dir (SearchPath.fileOf name) ∧
    fs.isFile path = true ∧ ∀ d ∈ before, fs.isFile (Path.join d (SearchPath.fileOf name)) = false

/-- The include stands for a text that declares one namespace. -/
def IsGood (search : SearchPath) (fs : FileSystem) (name : Text) (path : Path) (target : Namespace) : Prop :=
  StandsFor search fs name path ∧ ∃ text, fs.readText path = .ok text ∧
    (Source.ofText path text).declaredNamespaces = {target}

/-- What is wrong with an include, by the first step that fails. A source without a namespace of its own is known by the
name of the include. -/
inductive Fault (search : SearchPath) (fs : FileSystem) (name : Text) : SourceError → Prop
  | unresolved (h : ∀ dir ∈ search.dirs, fs.isFile (Path.join dir (SearchPath.fileOf name)) = false) :
      Fault search fs name (.unresolved name)
  | unreadable {path : Path} {cause : ReadError} (h : StandsFor search fs name path)
      (hread : fs.readText path = .error cause) : Fault search fs name (.unreadable path cause)
  | namespaceCount {path : Path} {text : Text} (h : StandsFor search fs name path) (hread : fs.readText path = .ok text)
      (hns : ∀ value, (Source.ofText path text).declaredNamespaces ≠ {value}) :
      Fault search fs name (.namespaceCount name (Source.ofText path text).declaredNamespaces.ncard)

/-! ## One include -/

section
variable {search : SearchPath} {fs : FileSystem} {name : Text} {path : Path}

theorem readSource_eq_ok_iff {s : Source} :
    readSource fs path = .ok s ↔ ∃ text, fs.readText path = .ok text ∧ s = .ofText path text := by
  unfold readSource
  split
  · next text h => simp [h, eq_comm]
  · next e h => simp [h]

theorem readSource_eq_error_iff {e : SourceError} :
    readSource fs path = .error e ↔ ∃ cause, fs.readText path = .error cause ∧ e = .unreadable path cause := by
  unfold readSource
  split
  · next text h => simp [h]
  · next cause h => simp [h, eq_comm]

/-- An include that is good resolves, and no other. -/
theorem resolveInclude_eq_ok_iff {edge : Edge} :
    resolveInclude search fs name = .ok edge ↔ edge.name = name ∧ IsGood search fs name edge.path edge.target := by
  unfold resolveInclude
  constructor
  · intro h
    obtain ⟨path, hpath, h⟩ := Chain.bind_eq_ok.1 h
    obtain ⟨included, hread, h⟩ := Chain.bind_eq_ok.1 h
    obtain ⟨target, htarget, h⟩ := Chain.bind_eq_ok.1 h
    cases h
    obtain ⟨text, htext, rfl⟩ := readSource_eq_ok_iff.1 hread
    exact ⟨rfl, resolve_eq_ok_iff.1 hpath, text, htext, ownNamespace_eq_ok_iff.1 htarget⟩
  · obtain ⟨edgeName, path, target⟩ := edge
    rintro ⟨rfl, hpath, text, htext, htarget⟩
    refine Chain.bind_eq_ok.2 ⟨path, resolve_eq_ok_iff.2 hpath, Chain.bind_eq_ok.2 ⟨_,
      readSource_eq_ok_iff.2 ⟨text, htext, rfl⟩, Chain.bind_eq_ok.2 ⟨target, ownNamespace_eq_ok_iff.2 htarget, rfl⟩⟩⟩

theorem resolveInclude_eq_error_iff {e : SourceError} :
    resolveInclude search fs name = .error e ↔ Fault search fs name e := by
  unfold resolveInclude
  constructor
  · intro h
    rcases Chain.bind_eq_error.1 h with hpath | ⟨path, hpath, h⟩
    · obtain ⟨rfl, hnone⟩ := resolve_eq_error_iff.1 hpath
      exact .unresolved hnone
    rcases Chain.bind_eq_error.1 h with hread | ⟨included, hread, h⟩
    · obtain ⟨cause, hcause, rfl⟩ := readSource_eq_error_iff.1 hread
      exact .unreadable (resolve_eq_ok_iff.1 hpath) hcause
    rcases Chain.bind_eq_error.1 h with hns | ⟨target, -, h⟩
    · obtain ⟨text, htext, rfl⟩ := readSource_eq_ok_iff.1 hread
      obtain ⟨hne, rfl⟩ := ownNamespace_eq_error_iff.1 hns
      exact .namespaceCount (resolve_eq_ok_iff.1 hpath) htext hne
    · cases h
  · intro h
    cases h with
    | unresolved hnone => exact Chain.bind_eq_error.2 (.inl (resolve_eq_error_iff.2 ⟨rfl, hnone⟩))
    | unreadable hpath hread =>
      exact Chain.bind_eq_error.2 (.inr ⟨_, resolve_eq_ok_iff.2 hpath,
        Chain.bind_eq_error.2 (.inl (readSource_eq_error_iff.2 ⟨_, hread, rfl⟩))⟩)
    | namespaceCount hpath hread hns =>
      exact Chain.bind_eq_error.2 (.inr ⟨_, resolve_eq_ok_iff.2 hpath, Chain.bind_eq_error.2 (.inr ⟨_,
        readSource_eq_ok_iff.2 ⟨_, hread, rfl⟩, Chain.bind_eq_error.2
          (.inl (ownNamespace_eq_error_iff.2 ⟨hns, rfl⟩))⟩)⟩)

theorem IsGood.unique {path' : Path} {target target' : Namespace} (h : IsGood search fs name path target)
    (h' : IsGood search fs name path' target') : path = path' ∧ target = target' := by
  have hok : resolveInclude search fs name = .ok ⟨name, path, target⟩ := resolveInclude_eq_ok_iff.2 ⟨rfl, h⟩
  have hok' : resolveInclude search fs name = .ok ⟨name, path', target'⟩ := resolveInclude_eq_ok_iff.2 ⟨rfl, h'⟩
  cases hok.symm.trans hok'
  exact ⟨rfl, rfl⟩

end

/-! ## All edges -/

theorem insertEdge_eq_append {edge : Edge} {edges : List Edge} (h : ∀ x ∈ edges, x.name < edge.name) :
    insertEdge edge edges = edges ++ [edge] := by
  induction edges with
  | nil => rfl
  | cons other edges ih =>
    have hlt := h other List.mem_cons_self
    have hne : edge.name ≠ other.name := by
      rintro e
      exact List.lt_irrefl _ (e ▸ hlt)
    rw [insertEdge, if_neg (List.lt_asymm hlt), if_neg hne, ih fun x hx => h x (List.mem_cons_of_mem _ hx)]
    rfl

/-- Edges in the order of their names stay as they are: none is lost and no two are merged. -/
theorem edges_ofEdges {edges : List Edge} (h : edges.Pairwise (·.name < ·.name)) :
    (Includes.ofEdges edges).edges = edges := by
  induction edges using List.reverseRecOn with
  | nil => rfl
  | append_singleton edges edge ih =>
    obtain ⟨hedges, -, hlast⟩ := List.pairwise_append.1 h
    have hstep : (Includes.ofEdges (edges ++ [edge])).edges = insertEdge edge (Includes.ofEdges edges).edges := by
      unfold Includes.ofEdges
      rw [List.foldl_append]
      rfl
    rw [hstep, ih hedges, insertEdge_eq_append fun x hx => hlast x hx edge List.mem_cons_self]

section
variable {search : SearchPath} {fs : FileSystem} {source : Source}

/-- Resolved edges have the names that they were resolved from, each once and in their order. -/
theorem mapM_resolveInclude_eq_ok_iff {names : List Text} {edges : List Edge} :
    names.mapM (resolveInclude search fs) = .ok edges ↔ edges.map Edge.name = names ∧
      ∀ edge ∈ edges, IsGood search fs edge.name edge.path edge.target := by
  induction names generalizing edges with
  | nil =>
    rw [Chain.mapM_nil_eq_ok, List.map_eq_nil_iff]
    exact ⟨fun h => ⟨h, by simp [h]⟩, fun h => h.1⟩
  | cons name names ih =>
    rw [Chain.mapM_cons_eq_ok]
    constructor
    · rintro ⟨edge, rest, hedge, hrest, rfl⟩
      obtain ⟨rfl, hgood⟩ := resolveInclude_eq_ok_iff.1 hedge
      obtain ⟨rfl, hall⟩ := ih.1 hrest
      exact ⟨rfl, List.forall_mem_cons.2 ⟨hgood, hall⟩⟩
    · rintro ⟨hnames, hall⟩
      obtain ⟨edge, rest, rfl, rfl, rfl⟩ := List.map_eq_cons_iff.1 hnames
      obtain ⟨hgood, hrest⟩ := List.forall_mem_cons.1 hall
      exact ⟨edge, rest, resolveInclude_eq_ok_iff.2 ⟨rfl, hgood⟩, ih.2 ⟨rfl, hrest⟩, rfl⟩

/-- The includes of a source are one good edge for each name, in the order of the names. -/
theorem resolveIncludes_eq_ok_iff {includes : Includes} : resolveIncludes search fs source = .ok includes ↔
    includes.edges.map Edge.name = source.includes.toList ∧
      ∀ edge ∈ includes.edges, IsGood search fs edge.name edge.path edge.target := by
  rw [← mapM_resolveInclude_eq_ok_iff]
  unfold resolveIncludes
  rw [Chain.bind_eq_ok]
  constructor
  · rintro ⟨edges, hedges, h⟩
    cases h
    have hsorted : edges.Pairwise (·.name < ·.name) := by
      rw [← List.pairwise_map (f := Edge.name) (R := (· < ·)), (mapM_resolveInclude_eq_ok_iff.1 hedges).1]
      exact source.includes.sorted
    rwa [edges_ofEdges hsorted]
  · intro h
    have hedges : Includes.ofEdges includes.edges = includes := by
      have hsame := edges_ofEdges includes.sorted
      generalize Includes.ofEdges includes.edges = made at hsame
      cases made
      cases includes
      cases hsame
      rfl
    exact ⟨includes.edges, h, congrArg _ hedges⟩

theorem exists_resolveInclude_iff {name : Text} :
    (∃ edge, resolveInclude search fs name = .ok edge) ↔ ∃ path target, IsGood search fs name path target := by
  constructor
  · rintro ⟨edge, h⟩
    obtain ⟨rfl, hgood⟩ := resolveInclude_eq_ok_iff.1 h
    exact ⟨edge.path, edge.target, hgood⟩
  · rintro ⟨path, target, hgood⟩
    exact ⟨⟨name, path, target⟩, resolveInclude_eq_ok_iff.2 ⟨rfl, hgood⟩⟩

/-- The includes of a source resolve exactly if each of them is good. -/
theorem exists_resolveIncludes_iff : (∃ includes, resolveIncludes search fs source = .ok includes) ↔
    ∀ name ∈ source.includes, ∃ path target, IsGood search fs name path target := by
  have hmapM : (∃ includes, resolveIncludes search fs source = .ok includes) ↔
      ∃ edges, source.includes.toList.mapM (resolveInclude search fs) = .ok edges := by
    unfold resolveIncludes
    constructor
    · rintro ⟨includes, h⟩
      obtain ⟨edges, hedges, -⟩ := Chain.bind_eq_ok.1 h
      exact ⟨edges, hedges⟩
    · rintro ⟨edges, hedges⟩
      exact ⟨_, Chain.bind_eq_ok.2 ⟨edges, hedges, rfl⟩⟩
  rw [hmapM, Chain.exists_mapM_eq_ok]
  simp only [exists_resolveInclude_iff, NameSet.mem_def]

/-- If they do not, the first fault by name is the failure. -/
theorem resolveIncludes_eq_error_iff {e : SourceError} : resolveIncludes search fs source = .error e ↔
    ∃ name ∈ source.includes, Fault search fs name e ∧
      ∀ earlier ∈ source.includes, earlier < name → ∃ path target, IsGood search fs earlier path target := by
  have hmapM : resolveIncludes search fs source = .error e ↔
      source.includes.toList.mapM (resolveInclude search fs) = .error e := by
    unfold resolveIncludes
    rw [Chain.bind_eq_error]
    exact or_iff_left fun ⟨_, _, h⟩ => nomatch h
  rw [hmapM, Chain.mapM_eq_error]
  have hsorted := source.includes.sorted
  constructor
  · rintro ⟨before, name, after, hnames, hbefore, hfault⟩
    rw [hnames] at hsorted
    refine ⟨name, NameSet.mem_def.2 (by simp [hnames]), resolveInclude_eq_error_iff.1 hfault, fun earlier hmem hlt => ?_⟩
    rw [NameSet.mem_def, hnames] at hmem
    -- what is not in front of the name is not less than it
    have hfront : earlier ∈ before := by
      rcases List.mem_append.1 hmem with hmem | hmem
      · exact hmem
      rcases List.mem_cons.1 hmem with rfl | hmem
      · exact absurd hlt (List.lt_irrefl _)
      · exact absurd hlt (List.lt_asymm ((List.pairwise_cons.1 (List.pairwise_append.1 hsorted).2.1).1 _ hmem))
    exact exists_resolveInclude_iff.1 (hbefore earlier hfront)
  · rintro ⟨name, hmem, hfault, hearlier⟩
    obtain ⟨before, after, hnames⟩ := List.append_of_mem (NameSet.mem_def.1 hmem)
    rw [hnames] at hsorted
    refine ⟨before, name, after, hnames, fun earlier hfront => ?_, resolveInclude_eq_error_iff.2 hfault⟩
    exact exists_resolveInclude_iff.2 (hearlier earlier (NameSet.mem_def.2 (by simp [hnames, hfront]))
      ((List.pairwise_append.1 hsorted).2.2 earlier hfront name List.mem_cons_self))

end

/-- The includes of a source resolve exactly if each of its names stands for a text that declares one namespace. Then
there is one edge for each name, in their order, with the file and the namespace that the name stands for, and the
namespaces are those. Otherwise the failure is that of the first name, by the order of bytes, that is not good. -/
theorem resolveIncludes_exact (search : SearchPath) (fs : FileSystem) (source : Source) :
    ((∃ includes, resolveIncludes search fs source = .ok includes) ↔
      ∀ name ∈ source.includes, ∃ path target, IsGood search fs name path target) ∧
    (∀ includes, resolveIncludes search fs source = .ok includes →
      includes.edges.map Edge.name = source.includes.toList ∧
      (∀ edge ∈ includes.edges, IsGood search fs edge.name edge.path edge.target) ∧
      ∀ target, target ∈ includes.namespaces ↔
        ∃ name ∈ source.includes, ∃ path, IsGood search fs name path target) ∧
    ∀ e, resolveIncludes search fs source = .error e ↔ ∃ name ∈ source.includes, Fault search fs name e ∧
      ∀ earlier ∈ source.includes, Text.Utf8.encode earlier < Text.Utf8.encode name →
        ∃ path target, IsGood search fs earlier path target := by
  refine ⟨exists_resolveIncludes_iff, fun includes h => ?_, fun e => ?_⟩
  · obtain ⟨hnames, hgood⟩ := resolveIncludes_eq_ok_iff.1 h
    refine ⟨hnames, hgood, fun target => ?_⟩
    have hmem : target ∈ includes.namespaces ↔ ∃ edge ∈ includes.edges, edge.target = target := by
      rw [Includes.namespaces, NameSet.mem_ofList, List.mem_map]
    rw [hmem]
    constructor
    · rintro ⟨edge, hedge, rfl⟩
      have hname : edge.name ∈ source.includes := by
        rw [NameSet.mem_def, ← hnames]
        exact List.mem_map_of_mem hedge
      exact ⟨edge.name, hname, edge.path, hgood edge hedge⟩
    · rintro ⟨name, hname, path, htarget⟩
      rw [NameSet.mem_def, ← hnames] at hname
      obtain ⟨edge, hedge, rfl⟩ := List.mem_map.1 hname
      exact ⟨edge, hedge, ((hgood edge hedge).unique htarget).2⟩
  · simp only [resolveIncludes_eq_error_iff, Text.Utf8.encode_lt_encode_iff]

def includedFiles : FileSystem :=
  { FileSystem.bare [] with
    entries := [(["idl".toList], .directory), (["shared".toList, "idl".toList], .directory),
      (["base.thrift".toList, "idl".toList], .file (.text "namespace js pkg.base".toList) false),
      (["common.thrift".toList, "shared".toList, "idl".toList], .file (.text "namespace js pkg.common".toList) false),
      (["empty.thrift".toList, "idl".toList], .file (.text "struct A \x7b\x7d".toList) false)] }

/-- Two good includes, and then two that are not good, of which the first by name is reported. -/
theorem resolveIncludes_exact_four :
    let search : SearchPath := ⟨["idl".toList, "idl/shared".toList]⟩
    let good := Source.ofText [] "include \"common.thrift\"\ninclude \"base.thrift\"".toList
    let bad := Source.ofText [] "include \"zebra.thrift\"\ninclude \"empty.thrift\"\ninclude \"base.thrift\"".toList
    (∃ includes, resolveIncludes search includedFiles good = .ok includes ∧
      includes.edges.map Edge.name = ["base".toList, "common".toList] ∧
      (∀ edge ∈ includes.edges, IsGood search includedFiles edge.name edge.path edge.target) ∧
      ∀ target, target ∈ includes.namespaces ↔
        ∃ name ∈ good.includes, ∃ path, IsGood search includedFiles name path target) ∧
    ∃ name ∈ bad.includes, Fault search includedFiles name (.namespaceCount "empty".toList 0) ∧
      ∀ earlier ∈ bad.includes, Text.Utf8.encode earlier < Text.Utf8.encode name →
        ∃ path target, IsGood search includedFiles earlier path target := by
  intro search good bad
  have hnames : good.includes.toList = ["base".toList, "common".toList] := by decide +kernel
  obtain ⟨-, hok, -⟩ := resolveIncludes_exact search includedFiles good
  obtain ⟨-, -, herror⟩ := resolveIncludes_exact search includedFiles bad
  refine ⟨?_, (herror _).1 ?_⟩
  · have hresolves : (resolveIncludes search includedFiles good).isOk = true := by decide +kernel
    cases h : resolveIncludes search includedFiles good with
    | ok includes =>
      obtain ⟨hedges, hgood, hns⟩ := hok includes h
      exact ⟨includes, rfl, hedges.trans hnames, hgood, hns⟩
    | error e =>
      rw [h] at hresolves
      cases hresolves
  · have hfault : (resolveIncludes search includedFiles bad).map Includes.edges =
        .error (.namespaceCount "empty".toList 0) := by decide +kernel
    cases h : resolveIncludes search includedFiles bad with
    | ok includes =>
      rw [h] at hfault
      cases hfault
    | error e =>
      rw [h] at hfault
      cases hfault
      rfl

end ThriftModules.Idl
