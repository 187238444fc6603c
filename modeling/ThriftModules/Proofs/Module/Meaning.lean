import ThriftModules.Idl.SearchPath
import ThriftModules.Module.Declarations
import ThriftModules.Module.Script
import ThriftModules.Proofs.Idl.Comments
import ThriftModules.Proofs.Idl.Literals
import ThriftModules.Proofs.Idl.Resolved

/-!
# Comments and literals carry no meaning

* `contextOf` : what the modules of a source are composed from;
* `SameModules` : sources whose modules are the same, for given includes;
* `sameModules_literal` : no module depends on what stands in a literal;
* `comments_and_literals_are_meaningless` : no capture and no module depends on the body of a comment, and neither the
  declarations, nor the namespace, nor a module depends on what stands in a literal.
-/

namespace ThriftModules.Module

set_option autoImplicit false

open Idl (Source Symbols Includes SearchPath CommentStyle StandsInCode IsLiteralText withLiteral isLiteralQuote)

def contextOf (project : Text) (source : Source) (ns : Namespace) (includes : Includes) : Context :=
  ⟨project, source, ns, .ofSource source, includes⟩

/-- Sources whose modules are the same, for the given includes. -/
structure SameModules (includes : Includes) (s t : Source) : Prop where
  script : ∀ project ns script,
    composeScript (contextOf project s ns includes) script = composeScript (contextOf project t ns includes) script
  declarations : ∀ project ns files,
    composeDeclarations (contextOf project s ns includes) files =
      composeDeclarations (contextOf project t ns includes) files

/-! ## What a module takes from its source -/

/-- The script module takes the source by its declarations alone. -/
theorem composeScript_source (ctx : Context) (s : Source) (script : Text) :
    composeScript { ctx with source := s } script = composeScript ctx script := rfl

theorem crossImports_source {ctx : Context} {s : Source}
    (h : ∀ edge ∈ ctx.includes.edges, referencedNames s edge.name = referencedNames ctx.source edge.name) :
    crossImports { ctx with source := s } = crossImports ctx := by
  unfold crossImports
  rw [List.flatMap_def, List.flatMap_def]
  refine congrArg List.flatten (List.map_congr_left fun edge he => ?_)
  rw [h edge he]
  rfl

/-- The declaration module takes the source by its declarations and by the names that it refers to. -/
theorem composeDeclarations_source {ctx : Context} {s : Source}
    (h : ∀ edge ∈ ctx.includes.edges, referencedNames s edge.name = referencedNames ctx.source edge.name)
    (files : List Text) : composeDeclarations { ctx with source := s } files = composeDeclarations ctx files := by
  rw [composeDeclarations, crossImports_source h]
  rfl

/-! ## Literals -/

section
variable {before after b c : Text} {quote : Char}

theorem symbols_literal (path : Text) (hq : isLiteralQuote quote = true)
    (h : StandsInCode (withLiteral before quote b after) (quote :: (b ++ quote :: after)))
    (hb : IsLiteralText quote b) (hc : IsLiteralText quote c) :
    Symbols.ofSource (.ofText path (withLiteral before quote b after)) =
      Symbols.ofSource (.ofText path (withLiteral before quote c after)) := by
  have hkind := Idl.declared_literal path hq h hb hc
  rw [Symbols.ofSource, Symbols.ofSource, hkind, hkind, hkind, hkind]

theorem namespace?_literal (path : Text) (hq : isLiteralQuote quote = true)
    (h : StandsInCode (withLiteral before quote b after) (quote :: (b ++ quote :: after)))
    (hb : IsLiteralText quote b) (hc : IsLiteralText quote c) :
    (Source.ofText path (withLiteral before quote b after)).namespace? =
      (Source.ofText path (withLiteral before quote c after)).namespace? := by
  rw [Source.namespace?, Source.namespace?, Idl.namespaces_literal path hq h hb hc]

theorem referencedNames_literal (path : Text) (hq : isLiteralQuote quote = true)
    (h : StandsInCode (withLiteral before quote b after) (quote :: (b ++ quote :: after)))
    (hb : IsLiteralText quote b) (hc : IsLiteralText quote c) {name : Text} (hn : quote ∉ name) :
    referencedNames (.ofText path (withLiteral before quote b after)) name =
      referencedNames (.ofText path (withLiteral before quote c after)) name :=
  congrArg NameSet.ofList (Idl.flatMap_bareLines_literal path hq h hb hc (Idl.qualifiedReferences_blanks hq hn))

theorem sameModules_literal (path : Text) (hq : isLiteralQuote quote = true)
    (h : StandsInCode (withLiteral before quote b after) (quote :: (b ++ quote :: after)))
    (hb : IsLiteralText quote b) (hc : IsLiteralText quote c) {includes : Includes}
    (hi : ∀ edge ∈ includes.edges, quote ∉ edge.name) :
    SameModules includes (.ofText path (withLiteral before quote b after))
      (.ofText path (withLiteral before quote c after)) where
  script project ns script := by
    rw [contextOf, contextOf, symbols_literal path hq h hb hc]
    let ctx : Context := contextOf project (.ofText path (withLiteral before quote c after)) ns includes
    exact composeScript_source ctx _ script
  declarations project ns files := by
    rw [contextOf, contextOf, symbols_literal path hq h hb hc]
    have hnames : ∀ edge ∈ includes.edges,
        referencedNames (.ofText path (withLiteral before quote b after)) edge.name =
          referencedNames (.ofText path (withLiteral before quote c after)) edge.name :=
      fun edge he => referencedNames_literal path hq h hb hc (hi edge he)
    let ctx : Context := contextOf project (.ofText path (withLiteral before quote c after)) ns includes
    exact @composeDeclarations_source ctx _ hnames files

end

/-! ## Both -/

/-- No capture and no module depends on the body of a comment. Neither the declarations, nor the namespace, nor a module
with resolved includes depends on what stands in a literal. -/
theorem comments_and_literals_are_meaningless :
    (∀ (style : CommentStyle) (path before after b c : Text),
      StandsInCode (before ++ (style.text b ++ after)) (style.text b ++ after) →
      style.Encloses b after → style.Encloses c after → b.count '\n' = c.count '\n' →
      let s := Source.ofText path (before ++ (style.text b ++ after))
      let t := Source.ofText path (before ++ (style.text c ++ after))
      s.codeLines = t.codeLines ∧ s.bareLines = t.bareLines ∧ Symbols.ofSource s = Symbols.ofSource t ∧
        s.includes = t.includes ∧ s.namespace? = t.namespace? ∧
        (∀ name, referencedNames s name = referencedNames t name) ∧ ∀ includes, SameModules includes s t) ∧
    ∀ (quote : Char) (path before after b c : Text), isLiteralQuote quote = true →
      StandsInCode (withLiteral before quote b after) (quote :: (b ++ quote :: after)) →
      IsLiteralText quote b → IsLiteralText quote c →
      let s := Source.ofText path (withLiteral before quote b after)
      let t := Source.ofText path (withLiteral before quote c after)
      Symbols.ofSource s = Symbols.ofSource t ∧ s.namespace? = t.namespace? ∧
        ∀ (search : SearchPath) (fs : FileSystem) (origin : Source) (includes : Includes),
          Idl.resolveIncludes search fs origin = .ok includes → SameModules includes s t := by
  constructor
  · intro style path before after b c h hb hc hcount s t
    have hst : s = t := Idl.ofText_comment path h hb hc hcount
    rw [hst]
    exact ⟨rfl, rfl, rfl, rfl, rfl, fun _ => rfl, fun _ => ⟨fun _ _ _ => rfl, fun _ _ _ => rfl⟩⟩
  · intro quote path before after b c hq h hb hc s t
    refine ⟨symbols_literal path hq h hb hc, namespace?_literal path hq h hb hc, ?_⟩
    intro search fs origin includes hincludes
    apply sameModules_literal path hq h hb hc
    intro edge he hmem
    have hword := Idl.isWordChar_of_resolved hincludes he quote hmem
    rw [Idl.not_isWordChar_of_isLiteralQuote hq] at hword
    cases hword

/-- A comment that declares nothing and a literal that refers to nothing, whatever they hold. -/
theorem meaningless_comment_and_literal :
    let s := Source.ofText [] "struct A \x7b\x7d // 'B\n/* struct B \n */ enum C".toList
    let t := Source.ofText [] "struct A \x7b\x7d // 'B\n/*\n// */ enum C".toList
    let u := Source.ofText [] "#\nconst string x = \"struct D \" // \"".toList
    let v := Source.ofText [] "#\nconst string x = \"\" // \"".toList
    s.bareLines = t.bareLines ∧ Symbols.ofSource u = Symbols.ofSource v ∧ SameModules .empty u v := by
  intro s t u v
  have hcomment := comments_and_literals_are_meaningless.1 .block [] "struct A \x7b\x7d // 'B\n".toList " enum C".toList
    " struct B \n ".toList "\n// ".toList ⟨14, rfl⟩ rfl rfl (by decide)
  have hliteral := comments_and_literals_are_meaningless.2 '"' [] "#\nconst string x = ".toList " // \"".toList
    "struct D ".toList [] (by decide) ⟨19, rfl⟩ (by unfold IsLiteralText; decide) (by unfold IsLiteralText; decide)
  exact ⟨hcomment.2.1, hliteral.1, hliteral.2.2 ⟨[]⟩ (.bare []) (Source.ofText [] []) .empty rfl⟩

end ThriftModules.Module
