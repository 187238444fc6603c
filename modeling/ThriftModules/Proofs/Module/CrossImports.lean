import ThriftModules.Module.Declarations
import ThriftModules.Proofs.Text.Sites
import ThriftModules.Proofs.Text.Trim

/-!
# Which names the cross-module imports bind

* `importedName?` : the name that an import line binds;
* `BindsOnce` : the lines are distinct, and none binds a name that another one binds;
* `Apart` : the source refers to no name behind both of two includes;
* `crossImports_bindsOnce_iff` : the imports of a declaration module bind each name once exactly if its includes are
  apart.

The names behind one include are a set, so each is imported once from there. Nothing compares the sets of two includes.
-/

namespace ThriftModules.Module

set_option autoImplicit false

open Idl (Source Edge)

/-! ## Import lines -/

def importedName? (line : Text) : Option Text := (Text.stripStart? "import \x7b ".toList line).map Text.takeWord

/-- The lines are distinct, and none binds a name that another one binds. -/
def BindsOnce (lines : List Text) : Prop :=
  lines.Nodup ∧
    lines.Pairwise fun line line' => ∀ name, importedName? line = some name → importedName? line' ≠ some name

/-- The source refers to no name behind both includes. -/
def Apart (source : Source) (e e' : Edge) : Prop :=
  ∀ name ∈ referencedNames source e.name, name ∉ referencedNames source e'.name

section
variable {ctx : Context} {source : Source} {e e' : Edge} {path path' name name' : Text}

theorem flatten_import (opening name middle path closing : Text) :
    [opening, name, middle, path, closing].flatten = opening ++ (name ++ (middle ++ (path ++ closing))) := by
  simp

theorem crossImport_eq (path name : Text) :
    crossImport path name = "import \x7b ".toList ++ (name ++ (" \x7d from '".toList ++ (path ++ "';".toList))) :=
  flatten_import ..

theorem isWordChar_of_mem_referencedNames {qualifier : Text} (h : name ∈ referencedNames source qualifier) :
    ∀ c ∈ name, Text.isWordChar c = true := by
  obtain ⟨line, -, hreference⟩ := List.mem_flatMap.1 (NameSet.mem_ofList.1 h)
  obtain ⟨o, -, rfl⟩ := List.mem_map.1 (List.mem_filter.1 hreference).1
  exact fun c hc => List.mem_takeWhile_imp hc

theorem importedName?_crossImport (hname : ∀ c ∈ name, Text.isWordChar c = true) :
    importedName? (crossImport path name) = some name := by
  rw [importedName?, crossImport_eq, Text.stripStart?_eq_some_iff.2 rfl, Option.map_some, Text.takeWord,
    List.takeWhile_append_of_pos hname]
  exact congrArg some (List.append_nil name)

/-- Imports of different words or from different modules are different. -/
theorem crossImport_inj (hname : ∀ c ∈ name, Text.isWordChar c = true)
    (hname' : ∀ c ∈ name', Text.isWordChar c = true) :
    crossImport path name = crossImport path' name' ↔ path = path' ∧ name = name' := by
  constructor
  · intro h
    have hsame : name = name' := by
      have himported := congrArg importedName? h
      rwa [importedName?_crossImport hname, importedName?_crossImport hname', Option.some.injEq] at himported
    subst hsame
    rw [crossImport_eq, crossImport_eq] at h
    have hpath := List.append_cancel_left (List.append_cancel_left (List.append_cancel_left h))
    exact ⟨List.append_cancel_right hpath, rfl⟩
  · rintro ⟨rfl, rfl⟩
    rfl

theorem modulePath_inj {ns ns' : Namespace} : ctx.modulePath ns = ctx.modulePath ns' ↔ ns = ns' := by
  simp [Context.modulePath]

/-! ## Imports of one include, and of two -/

def importsOf (ctx : Context) (e : Edge) : List Text :=
  (referencedNames ctx.source e.name).toList.map (crossImport (ctx.modulePath e.target))

theorem crossImports_eq (ctx : Context) : crossImports ctx = ctx.includes.edges.flatMap (importsOf ctx) := rfl

theorem exists_of_mem_importsOf {line : Text} (h : line ∈ importsOf ctx e) :
    ∃ name ∈ referencedNames ctx.source e.name, (∀ c ∈ name, Text.isWordChar c = true) ∧
      line = crossImport (ctx.modulePath e.target) name := by
  obtain ⟨name, hname, rfl⟩ := List.mem_map.1 h
  exact ⟨name, hname, isWordChar_of_mem_referencedNames hname, rfl⟩

theorem bindsOnce_importsOf (ctx : Context) (e : Edge) : BindsOnce (importsOf ctx e) := by
  have hnames := (referencedNames ctx.source e.name).sorted
  have hword : ∀ name ∈ (referencedNames ctx.source e.name).toList, ∀ c ∈ name, Text.isWordChar c = true :=
    fun name hname => isWordChar_of_mem_referencedNames hname
  constructor
  · rw [importsOf, List.Nodup, List.pairwise_map]
    refine hnames.imp_of_mem fun {x y} hx hy hlt heq => ?_
    rw [((crossImport_inj (hword x hx) (hword y hy)).1 heq).2] at hlt
    exact List.lt_irrefl y hlt
  · rw [importsOf, List.pairwise_map]
    refine hnames.imp_of_mem fun {x y} hx hy hlt name hbinds hbinds' => ?_
    rw [importedName?_crossImport (hword x hx)] at hbinds
    rw [importedName?_crossImport (hword y hy), ← hbinds] at hbinds'
    rw [Option.some.inj hbinds'] at hlt
    exact List.lt_irrefl x hlt

/-- No line of one include is a line of the other, unless both stand for one module and the source refers to a name
behind both. -/
theorem forall_ne_importsOf_iff :
    (∀ line ∈ importsOf ctx e, ∀ line' ∈ importsOf ctx e', line ≠ line') ↔
      (e.target = e'.target → Apart ctx.source e e') := by
  constructor
  · intro h htarget name hname hname'
    refine h _ (List.mem_map_of_mem hname) _ (List.mem_map_of_mem hname') ?_
    rw [htarget]
  · intro h line hline line' hline' heq
    obtain ⟨name, hname, hword, rfl⟩ := exists_of_mem_importsOf hline
    obtain ⟨name', hname', hword', rfl⟩ := exists_of_mem_importsOf hline'
    obtain ⟨hpath, rfl⟩ := (crossImport_inj hword hword').1 heq
    exact h (modulePath_inj.1 hpath) name hname hname'

/-- No line of one include binds a name that a line of the other binds, unless the source refers to it behind both. -/
theorem forall_binds_importsOf_iff :
    (∀ line ∈ importsOf ctx e, ∀ line' ∈ importsOf ctx e',
      ∀ name, importedName? line = some name → importedName? line' ≠ some name) ↔ Apart ctx.source e e' := by
  constructor
  · intro h name hname hname'
    have hbinds : ∀ {path}, importedName? (crossImport path name) = some name :=
      importedName?_crossImport (isWordChar_of_mem_referencedNames hname)
    exact h _ (List.mem_map_of_mem hname) _ (List.mem_map_of_mem hname') name hbinds hbinds
  · intro h line hline line' hline' name hbinds hbinds'
    obtain ⟨x, hx, hword, rfl⟩ := exists_of_mem_importsOf hline
    obtain ⟨y, hy, hword', rfl⟩ := exists_of_mem_importsOf hline'
    rw [importedName?_crossImport hword, Option.some.injEq] at hbinds
    rw [importedName?_crossImport hword', Option.some.injEq] at hbinds'
    subst hbinds hbinds'
    exact h y hx hy

end

/-- When the cross-module imports are distinct, and when they bind each name once: no name is referred to behind two
includes of one module, or behind two includes at all. -/
theorem crossImports_bindsOnce_iff (ctx : Context) :
    ((crossImports ctx).Nodup ↔
      ctx.includes.edges.Pairwise fun e e' => e.target = e'.target → Apart ctx.source e e') ∧
    (BindsOnce (crossImports ctx) ↔ ctx.includes.edges.Pairwise (Apart ctx.source)) := by
  have hdistinct : (crossImports ctx).Nodup ↔
      ctx.includes.edges.Pairwise fun e e' => e.target = e'.target → Apart ctx.source e e' := by
    rw [crossImports_eq, List.Nodup, List.pairwise_flatMap]
    simp only [forall_ne_importsOf_iff]
    exact and_iff_right fun e _ => (bindsOnce_importsOf ctx e).1
  refine ⟨hdistinct, ?_⟩
  rw [BindsOnce, hdistinct, crossImports_eq, List.pairwise_flatMap]
  simp only [forall_binds_importsOf_iff]
  constructor
  · exact fun h => h.2.2
  · intro h
    refine ⟨h.imp fun {e e'} hapart (_ : e.target = e'.target) => hapart, fun e _ => ?_, h⟩
    exact (bindsOnce_importsOf ctx e).2

def twoUsers (ns ns' : Namespace) : Context :=
  ⟨"app".toList, .ofText [] "struct Pair \x7b 1: a.User first, 2: b.User second \x7d".toList, "demo".toList,
    ⟨∅, ∅, ∅, ∅⟩, .ofEdges [⟨"a".toList, "a.thrift".toList, ns⟩, ⟨"b".toList, "b.thrift".toList, ns'⟩]⟩

/-- A name behind two includes is bound twice: by the same line if both are of one namespace, and from two modules if
they are not. -/
theorem crossImports_bind_twice :
    (crossImports (twoUsers "pkg".toList "pkg".toList) =
        ["import \x7b User \x7d from 'app/pkg';".toList, "import \x7b User \x7d from 'app/pkg';".toList] ∧
      ¬(crossImports (twoUsers "pkg".toList "pkg".toList)).Nodup) ∧
    crossImports (twoUsers "pkg.a".toList "pkg.b".toList) =
        ["import \x7b User \x7d from 'app/pkg.a';".toList, "import \x7b User \x7d from 'app/pkg.b';".toList] ∧
      ¬BindsOnce (crossImports (twoUsers "pkg.a".toList "pkg.b".toList)) := by
  have hsame : crossImports (twoUsers "pkg".toList "pkg".toList) =
      ["import \x7b User \x7d from 'app/pkg';".toList, "import \x7b User \x7d from 'app/pkg';".toList] := by
    decide +kernel
  have hapart : crossImports (twoUsers "pkg.a".toList "pkg.b".toList) =
      ["import \x7b User \x7d from 'app/pkg.a';".toList, "import \x7b User \x7d from 'app/pkg.b';".toList] := by
    decide +kernel
  refine ⟨⟨hsame, ?_⟩, hapart, ?_⟩
  · rw [hsame]
    decide
  · rw [hapart]
    rintro ⟨-, hbinds⟩
    exact (List.pairwise_cons.1 hbinds).1 _ List.mem_cons_self "User".toList (by decide) (by decide)

end ThriftModules.Module
