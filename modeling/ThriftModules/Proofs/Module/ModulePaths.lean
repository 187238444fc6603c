import ThriftModules.CommandLine.Arguments
import ThriftModules.Module.Declarations
import ThriftModules.Module.Script
import ThriftModules.Proofs.Idl.Dotted
import ThriftModules.Proofs.Script.StringValue

/-!
# Module paths as string literals

* `quotedPath` : the path of a module as it is written into another, between single quotes;
* `composeScript_paths`, `composeDeclarations_paths` : where the two modules of a source have them;
* `quotedPath_eq_iff` : which paths are read back;
* `module_paths_read_back` : the paths in composed modules are read back iff the project has no quote, no backslash and
  no line end.
-/

namespace ThriftModules.Module

set_option autoImplicit false

open Script (quoted stringLiteral? units isSpecial)

section
variable {ctx : Context} {ns : Namespace}

def quotedPath (ctx : Context) (ns : Namespace) : Text := quoted (ctx.modulePath ns)

/-! ## Where paths are written -/

def requireLine (ctx : Context) (ns : Namespace) : Text :=
  "var ".toList ++ ns ++ " = require (".toList ++ quotedPath ctx ns ++ ");\n".toList

def declareLine (ctx : Context) : Text := "declare module ".toList ++ quotedPath ctx ctx.ns ++ " \x7b\n".toList

def fromLine (ctx : Context) (name : Text) (ns : Namespace) : Text :=
  "import \x7b ".toList ++ name ++ " \x7d from ".toList ++ quotedPath ctx ns ++ ";\n".toList

/-- A line around a quoted path, where the quotes belong to the texts beside it. -/
theorem flatten_quoted (lead front path back : Text) :
    lead ++ [front ++ ['\''], path, '\'' :: back].flatten ++ ['\n'] = lead ++ front ++ quoted path ++ (back ++ ['\n']) := by
  simp [quoted]

theorem importLine_eq_requireLine (ctx : Context) (ns : Namespace) : importLine ctx ns ++ ['\n'] = requireLine ctx ns := by
  have hline : importLine ctx ns = "var ".toList ++ ns ++
      [" = require (".toList ++ ['\''], ctx.modulePath ns, '\'' :: ");".toList].flatten := by
    rw [List.append_assoc]
    rfl
  rw [hline, flatten_quoted]
  rfl

theorem moduleLine_eq_declareLine (ctx : Context) : moduleLine ctx ++ ['\n'] = declareLine ctx :=
  flatten_quoted [] "declare module ".toList (ctx.modulePath ctx.ns) " \x7b".toList

theorem crossImport_eq_fromLine (ctx : Context) (name : Text) (ns : Namespace) :
    crossImport (ctx.modulePath ns) name ++ ['\n'] = fromLine ctx name ns := by
  have hline : crossImport (ctx.modulePath ns) name = "import \x7b ".toList ++ name ++
      [" \x7d from ".toList ++ ['\''], ctx.modulePath ns, '\'' :: ";".toList].flatten := by
    rw [List.append_assoc]
    rfl
  rw [hline, flatten_quoted]
  rfl

theorem composeScript_paths (ctx : Context) (script : Text) : ∃ exports,
    (composeScript ctx script).text =
      (ctx.includes.namespaces.insert ctx.ns).toList.flatMap (requireLine ctx) ++ exports := by
  refine ⟨_, (List.flatMap_append ..).trans (congrArg (· ++ _) ?_)⟩
  rw [importLines, List.flatMap_map]
  exact congrArg (List.flatMap · _) (funext (importLine_eq_requireLine ctx))

theorem composeDeclarations_paths (ctx : Context) (files : List Text) : ∃ body,
    (composeDeclarations ctx files).text =
      declareLine ctx ++ runtimeImport ++ ['\n'] ++
        ctx.includes.edges.flatMap (fun edge =>
          (referencedNames ctx.source edge.name).toList.flatMap (fromLine ctx · edge.target)) ++ body := by
  have hcross : Text.unlines (crossImports ctx) = ctx.includes.edges.flatMap fun edge =>
      (referencedNames ctx.source edge.name).toList.flatMap (fromLine ctx · edge.target) := by
    rw [crossImports, Text.unlines, List.flatMap_assoc]
    refine congrArg (List.flatMap · _) (funext fun edge => ?_)
    rw [List.flatMap_map]
    exact congrArg (List.flatMap · _) (funext fun name => crossImport_eq_fromLine ctx name edge.target)
  have hunlines : ∀ ls ls' : List Text, Text.unlines (ls ++ ls') = Text.unlines ls ++ Text.unlines ls' :=
    fun _ _ => List.flatMap_append ..
  let adapted := files.map (adaptFile ctx)
  refine ⟨Text.unlines (adapted.flatMap bodyLines ++ [['}']]), ?_⟩
  show Text.unlines ([moduleLine ctx, runtimeImport] ++ crossImports ctx ++ adapted.flatMap bodyLines ++ [['}']]) = _
  have hstart : Text.unlines [moduleLine ctx, runtimeImport] = declareLine ctx ++ runtimeImport ++ ['\n'] := by
    rw [← moduleLine_eq_declareLine]
    simp [Text.unlines]
  rw [List.append_assoc, hunlines, hunlines, hstart, hcross]

/-! ## What is read back -/

theorem isSpecial_of_isDotted (h : IsDotted ns) : ∀ c ∈ ns, isSpecial c = false := by
  intro c hc
  have hchar := h.isNamespaceChar c hc
  rw [Bool.eq_false_iff]
  intro hs
  simp only [isSpecial, Bool.or_eq_true, beq_iff_eq] at hs
  rcases hs with ((rfl | rfl) | rfl) | rfl <;> exact absurd hchar (by decide)

/-- The path of a module is read back iff the project has no special character. -/
theorem quotedPath_eq_iff (h : IsDotted ns) (rest : Text) :
    stringLiteral? (quotedPath ctx ns ++ rest) = some (units (ctx.project ++ '/' :: ns), rest) ↔
      ∀ c ∈ ctx.project, isSpecial c = false := by
  refine (Script.stringLiteral?_eq_iff (ctx.modulePath ns) rest).trans ?_
  rw [Context.modulePath, List.forall_mem_append, List.forall_mem_cons]
  exact ⟨fun h => h.1, fun hp => ⟨hp, rfl, isSpecial_of_isDotted h⟩⟩

end

/-- Every module path in the modules of a source is one string literal with the path as its value, whatever follows it,
iff the project has no quote, no backslash and no line end. -/
theorem module_paths_read_back (ctx : Context) (script : Text) (files : List Text) (hns : IsDotted ctx.ns)
    (hincluded : ∀ edge ∈ ctx.includes.edges, IsDotted edge.target) :
    (∃ exports, (composeScript ctx script).text =
      (ctx.includes.namespaces.insert ctx.ns).toList.flatMap (requireLine ctx) ++ exports) ∧
    (∃ body, (composeDeclarations ctx files).text =
      declareLine ctx ++ runtimeImport ++ ['\n'] ++
        ctx.includes.edges.flatMap (fun edge =>
          (referencedNames ctx.source edge.name).toList.flatMap (fromLine ctx · edge.target)) ++ body) ∧
    ∀ ns ∈ ctx.includes.namespaces.insert ctx.ns, ∀ rest,
      (stringLiteral? (quotedPath ctx ns ++ rest) = some (units (ctx.project ++ '/' :: ns), rest) ↔
        ∀ c ∈ ctx.project, c ≠ '\'' ∧ c ≠ '\\' ∧ c ≠ '\n' ∧ c ≠ '\r') := by
  have hspecial : ∀ c, (c ≠ '\'' ∧ c ≠ '\\' ∧ c ≠ '\n' ∧ c ≠ '\r') ↔ isSpecial c = false := fun c => by
    simp [isSpecial, and_assoc]
  refine ⟨composeScript_paths ctx script, composeDeclarations_paths ctx files, fun ns hmem rest => ?_⟩
  simp only [hspecial]
  apply quotedPath_eq_iff
  rcases NameSet.mem_insert.1 hmem with rfl | hmem
  · exact hns
  · obtain ⟨edge, hedge, rfl⟩ := List.mem_map.1 (NameSet.mem_ofList.1 hmem)
    exact hincluded edge hedge

/-! ## A quote in the name of a project -/

def referringTo (project : Text) : Context :=
  ⟨project, .ofText [] "struct Group \x7b 1: common.User owner \x7d".toList, "demo".toList, ⟨∅, ∅, ∅, ∅⟩,
    .ofEdges [⟨"common".toList, "common.thrift".toList, "pkg.common".toList⟩]⟩

theorem isDotted_demo : IsDotted "demo".toList := ⟨["demo".toList], by decide, by decide, rfl⟩

theorem isDotted_referringTo (project : Text) : ∀ edge ∈ (referringTo project).includes.edges, IsDotted edge.target := by
  have hedges : (referringTo project).includes.edges =
      [⟨"common".toList, "common.thrift".toList, "pkg.common".toList⟩] := rfl
  rw [hedges, List.forall_mem_singleton]
  exact ⟨["pkg".toList, "common".toList], by decide, by decide, rfl⟩

/-- With a blank in the project's name the path is read back, with a quote it is not. -/
theorem module_paths_read_back_common :
    stringLiteral? (quotedPath (referringTo "my app".toList) "pkg.common".toList ++ ";\n".toList) =
        some (units "my app/pkg.common".toList, ";\n".toList) ∧
      stringLiteral? (quotedPath (referringTo "it's".toList) "pkg.common".toList ++ ";\n".toList) ≠
        some (units "it's/pkg.common".toList, ";\n".toList) := by
  have hincluded : "pkg.common".toList ∈ (referringTo []).includes.namespaces := by decide +kernel
  have hpaths := fun project => (module_paths_read_back (referringTo project) [] [] isDotted_demo
    (isDotted_referringTo project)).2.2 "pkg.common".toList (NameSet.mem_insert.2 (.inr hincluded)) ";\n".toList
  refine ⟨(hpaths "my app".toList).2 (by decide), fun h => ?_⟩
  exact absurd ((hpaths "it's".toList).1 h) (by decide)

/-- The command line accepts a project whose name ends the literal of a module path too early. -/
theorem module_path_ends_early : ¬∀ (environment : Option Text) (args : List Text) (a : CommandLine.Arguments)
    (ctx : Context) (script before rest : Text), CommandLine.parse environment args = .ok a →
    ctx.project = a.settings.project → IsDotted ctx.ns → (∀ edge ∈ ctx.includes.edges, IsDotted edge.target) →
    (composeScript ctx script).text = before ++ quotedPath ctx ctx.ns ++ rest →
    stringLiteral? (quotedPath ctx ctx.ns ++ rest) = some (units (ctx.project ++ '/' :: ctx.ns), rest) := by
  intro h
  let ctx : Context := ⟨"it's".toList, .ofText [] [], "demo".toList, ⟨∅, ∅, ∅, ∅⟩, .empty⟩
  have hparse : CommandLine.parse none ["-pit's".toList, "-iidl".toList, "-sout".toList] =
      .ok ⟨⟨"it's".toList, "idl".toList, "out".toList, false, CommandLine.defaultJavaGen,
        CommandLine.defaultScriptGen⟩, CommandLine.defaultThrift⟩ := by decide +kernel
  have htext : (composeScript ctx []).text =
      "var demo = require (".toList ++ quotedPath ctx ctx.ns ++ ");\n".toList := by decide +kernel
  have hread := h _ _ _ ctx _ _ _ hparse rfl isDotted_demo (fun _ he => nomatch he) htext
  exact absurd ((quotedPath_eq_iff isDotted_demo _).1 hread) (by decide)

end ThriftModules.Module
