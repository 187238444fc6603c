import ThriftModules.Module.Context
import ThriftModules.Script.Assignment

/-!
# The script module

* `importLines` : one `require` line per included namespace and for the own one, by namespace;
* `findObject?`, `findFunction?` : the first assignment to a target with a value of that class;
* `typeClosure`, `serviceClosure` : the exports of a type and of a service client;
* `composeScript` : the module; enums, then types, then services, each by name, and the names without code.
-/

namespace ThriftModules.Module

set_option autoImplicit false

open Idl (Symbols)
open Script (Assignment)

/-! ## Lookup -/

def findObject? (found : List Assignment) (target : Text) : Option Text :=
  found.findSome? fun a =>
    match a.value with
    | .object body => if a.target = target then some body else none
    | _ => none

def findFunction? (found : List Assignment) (target : Text) : Option Text :=
  found.findSome? fun a =>
    match a.value with
    | .function rest => if a.target = target then some rest else none
    | _ => none

/-- What follows the prototype of `owner` in a path below it. -/
def afterPrototype? (owner target : Text) : Option Text := Text.stripStart? (owner ++ ".prototype".toList) target

/-- Whether `target` is a reader or writer on the prototype of `owner`. -/
def isCodecMember (owner target : Text) : Bool :=
  match afterPrototype? owner target with
  | some ('.' :: member) => Text.startsWith member "read".toList || Text.startsWith member "write".toList
  | _ => false

/-- Whether `target` is the prototype of `owner` or a path below it. -/
def isPrototypePath (owner target : Text) : Bool :=
  match afterPrototype? owner target with
  | some rest => rest.isEmpty || rest.head? == some '.'
  | none => false

/-- Whether an assignment is a helper function of a service's calls. -/
def isCallHelper (service : Text) (a : Assignment) : Bool :=
  Text.startsWith a.root (service ++ ['_']) &&
    match a.value with
    | .function _ => true
    | _ => false

/-! ## Exports -/

def importLine (ctx : Context) (ns : Namespace) : Text :=
  ["var ".toList, ns, " = require ('".toList, ctx.modulePath ns, "');".toList].flatten

/-- The imports of the included namespaces and the own one. -/
def importLines (ctx : Context) : List Text :=
  (ctx.includes.namespaces.insert ctx.ns).toList.map (importLine ctx)

def enumExport (name body : Text) : Text :=
  ["exports.".toList, name, " = \x7b ".toList, Text.trim body, " \x7d".toList].flatten

def exceptionLines (name : Text) : List Text :=
  [["Thrift.inherits(".toList, name, ", Thrift.TException);".toList].flatten,
    [name, ".prototype.name = '".toList, name, "';".toList].flatten]

def closed (statement : Text) : Text := statement ++ [';']

def closureEnd (name : Text) : List Text :=
  [["return ".toList, name, ";".toList].flatten, "\x7d)();".toList, []]

/-- The export of a type: its constructor, its runtime class if it is an exception, and its readers and writers. -/
def typeClosure (found : List Assignment) (name constructor : Text) (exception : Bool) : List Text :=
  [["exports.".toList, name, " = (function () \x7b function ".toList, name, constructor].flatten,
    name ++ ".prototype = \x7b\x7d;".toList] ++
  (if exception then exceptionLines name else []) ++
  (found.filter fun a => isCodecMember name a.target).map (closed ·.unqualified) ++
  closureEnd name

/-- The export of a service client: its constructor, the helpers of its calls and its prototype. -/
def serviceClosure (found : List Assignment) (service client constructor : Text) : List Text :=
  [["exports.".toList, client, " = (function () \x7b".toList].flatten,
    ["function ".toList, client, constructor].flatten] ++
  (found.filter (isCallHelper service)).map (closed ·.statement) ++
  (found.filter fun a => isPrototypePath client a.target).map (closed ·.unqualified) ++
  closureEnd client

/-! ## The module -/

/-- Either the lines of an export or the name that has no generated code. -/
abbrev Export := Except Missing (List Text)

def exportEnum (found : List Assignment) (name : Text) : Export :=
  match findObject? found name with
  | some body => .ok [enumExport name body]
  | none => .error ⟨.enumeration, name⟩

def exportType (symbols : Symbols) (found : List Assignment) (name : Text) : Export :=
  match findFunction? found name with
  | some constructor => .ok (typeClosure found name constructor (symbols.isException name))
  | none => .error ⟨symbols.typeKind name, name⟩

def exportService (found : List Assignment) (service : Text) : Export :=
  match findFunction? found (Symbols.clientOf service) with
  | some constructor => .ok (serviceClosure found service (Symbols.clientOf service) constructor)
  | none => .error ⟨.service, service⟩

def exports (symbols : Symbols) (found : List Assignment) : List Export :=
  symbols.enums.toList.map (exportEnum found) ++ symbols.types.toList.map (exportType symbols found) ++
    symbols.services.toList.map (exportService found)

def Export.lines : Export → List Text
  | .ok lines => lines
  | .error _ => []

def Export.missing? : Export → Option Missing
  | .ok _ => none
  | .error missing => some missing

/-- The script module of a source from its generated script. -/
def composeScript (ctx : Context) (script : Text) : Composed :=
  let all := exports ctx.symbols (Script.assignments script ctx.ns)
  ⟨Text.unlines (importLines ctx ++ all.flatMap Export.lines), all.filterMap Export.missing?⟩

end ThriftModules.Module
