import ThriftModules.Module.Context
import ThriftModules.Module.Qualifier

/-!
# The declaration module

* `crossImports` : one import line per name that the source refers to in an included file;
* `exportHeader?` : the exported form of a line that opens a declared enum or class;
* `adaptLine?` : one line of a generated declaration file, adapted to the module;
* `composeDeclarations` : the module, and the enums, structs and exceptions that it does not export.
-/

namespace ThriftModules.Module

set_option autoImplicit false

open Idl (Source Symbols Edge Kind)

/-! ## Imports -/

def runtimeImport : Text := "import Thrift from 'thrift/Thrift';".toList

/-- The names that a source refers to behind the include name `name`. -/
def referencedNames (source : Source) (name : Text) : NameSet :=
  .ofList (source.bareLines.flatMap (qualifiedReferences name))

def crossImport (path name : Text) : Text :=
  ["import \x7b ".toList, name, " \x7d from '".toList, path, "';".toList].flatten

/-- The imports of the names that the source refers to, include by include. -/
def crossImports (ctx : Context) : List Text :=
  ctx.includes.edges.flatMap fun edge =>
    (referencedNames ctx.source edge.name).toList.map (crossImport (ctx.modulePath edge.target))

/-! ## Lines -/

/-- The keywords that open a declaration. -/
inductive Header where
  | enumeration
  | classBody
deriving DecidableEq, Repr

def Header.keyword : Header → Text
  | .enumeration => "enum".toList
  | .classBody => "class".toList

def Header.declares (symbols : Symbols) : Header → Text → Bool
  | .enumeration, name => decide (name ∈ symbols.enums)
  | .classBody, name => symbols.isClass name

/-- Whether `tail` opens the body of a declaration: a brace, or a base class. -/
def Header.opens (header : Header) (tail : Text) : Bool :=
  tail.head? == some '{' || (header == .classBody && (Text.stripKeyword? "extends".toList tail).isSome)

def header? (body : Text) : Option (Header × Text) :=
  match Text.stripKeyword? Header.enumeration.keyword body with
  | some after => some (.enumeration, after)
  | none => (Text.stripKeyword? Header.classBody.keyword body).map (.classBody, ·)

def exportHeader? (symbols : Symbols) (raw : Text) : Option (Text × Text) := do
  if !raw.head?.any Text.isBlank then none
  let (header, after) ← header? (Text.trimStart raw)
  let name := Text.takeWord after
  let tail := Text.trimStart (after.dropWhile Text.isWordChar)
  if name ≠ [] ∧ header.declares symbols name ∧ header.opens tail then
    return (name, ["export ".toList, header.keyword, [' '], name, [' '], tail].flatten)
  else none

/-- Whether a line is left out: a blank line, a line comment, or the opening of the ambient module. -/
def isLeftOut (raw : Text) : Bool :=
  let trimmed := Text.trim raw
  trimmed.isEmpty || Text.contains raw "declare module".toList || Text.startsWith trimmed "//".toList

/-- The line without qualifiers and closed block comments, trimmed. -/
def unqualify (ctx : Context) (line : Text) : Text :=
  let own := stripBlockComments (stripQualifier ctx.ns .removed line)
  Text.trim (ctx.includes.namespaces.toList.foldl (fun line ns => stripQualifier ns .kept line) own)

structure AdaptedLine where
  /-- The declared name that the line exports. -/
  exported : Option Text
  text : Text
deriving DecidableEq, Repr

/-- A line of a declaration file for the module, unless it is left out. -/
def adaptLine? (ctx : Context) (raw : Text) : Option AdaptedLine :=
  if isLeftOut raw then none
  else match exportHeader? ctx.symbols raw with
    | some (name, line) => some ⟨some name, unqualify ctx line⟩
    | none => some ⟨none, unqualify ctx raw⟩

def dropModuleEnd (lines : List Text) : List Text := if lines.getLast? = some ['}'] then lines.dropLast else lines

/-! ## The module -/

def adaptFile (ctx : Context) (file : Text) : List AdaptedLine := (Text.lines file).filterMap (adaptLine? ctx)

def bodyLines (adapted : List AdaptedLine) : List Text :=
  dropModuleEnd ((adapted.map AdaptedLine.text).filter (· ≠ []))

/-- The names of one kind that no line exports. -/
def unexported (exported : List Text) (kind : Kind) (names : NameSet) : List Missing :=
  (names.toList.filter (! exported.contains ·)).map (⟨kind, ·⟩)

def moduleLine (ctx : Context) : Text :=
  ["declare module '".toList, ctx.modulePath ctx.ns, "' \x7b".toList].flatten

/-- The declaration module of a source from its generated declaration files. -/
def composeDeclarations (ctx : Context) (files : List Text) : Composed :=
  let adapted := files.map (adaptFile ctx)
  let exported := adapted.flatten.filterMap AdaptedLine.exported
  ⟨Text.unlines ([moduleLine ctx, runtimeImport] ++ crossImports ctx ++ adapted.flatMap bodyLines ++ [['}']]),
    unexported exported .enumeration ctx.symbols.enums ++ unexported exported .struct ctx.symbols.structs ++
      unexported exported .exception ctx.symbols.exceptions⟩

end ThriftModules.Module
