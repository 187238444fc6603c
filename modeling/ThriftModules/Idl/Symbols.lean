import ThriftModules.Idl.Source
import ThriftModules.Text.Search
import ThriftModules.Text.NameSet

/-!
# What a source declares and includes

* `Kind` : the four declaration keywords;
* `Source.declared kind` : the names that follow the keyword of `kind` on some bare line;
* `Source.includes` : the base names of the included files, read from the code lines;
* `Symbols` : the declared names of a source by kind, with the derived sets `types` and `clients`.
-/

namespace ThriftModules.Idl

set_option autoImplicit false

/-! ## Kinds -/

/-- The kinds of declarations that have generated code. -/
inductive Kind where
  | enumeration
  | struct
  | exception
  | service
deriving DecidableEq, Repr

def Kind.keyword : Kind → Text
  | .enumeration => "enum".toList
  | .struct => "struct".toList
  | .exception => "exception".toList
  | .service => "service".toList

/-! ## Captures -/

def declaredWords (keyword line : Text) : List Text :=
  ((Text.keywordTails keyword line).map Text.takeWord).filter (· ≠ [])

def Source.declared (s : Source) (kind : Kind) : NameSet :=
  .ofList (s.bareLines.flatMap (declaredWords kind.keyword))

/-- The base name in a text that starts with a literal naming a Thrift file, such as `"name.thrift"`. -/
def includeTarget? : Text → Option Text
  | '"' :: quoted =>
    let name := Text.takeWord quoted
    if name ≠ [] ∧ Text.startsWith (quoted.dropWhile Text.isWordChar) ".thrift\"".toList then some name else none
  | _ => none

/-- The base names that `line` includes. -/
def includedNames (line : Text) : List Text :=
  (Text.keywordTails "include".toList line).filterMap includeTarget?

def Source.includes (s : Source) : NameSet := .ofList (s.codeLines.flatMap includedNames)

/-! ## Symbols -/

structure Symbols where
  enums : NameSet
  structs : NameSet
  exceptions : NameSet
  services : NameSet

namespace Symbols

def ofSource (s : Source) : Symbols :=
  ⟨s.declared .enumeration, s.declared .struct, s.declared .exception, s.declared .service⟩

def clientOf (service : Text) : Text := service ++ "Client".toList

def types (s : Symbols) : NameSet := s.structs.union s.exceptions

def clients (s : Symbols) : NameSet := .ofList (s.services.toList.map clientOf)

/-- Whether `name` is an exception; it is one even if it is declared as a struct too. -/
def isException (s : Symbols) (name : Text) : Bool := decide (name ∈ s.exceptions)

/-- The kind under which a type is reported. -/
def typeKind (s : Symbols) (name : Text) : Kind := if s.isException name then .exception else .struct

/-- Whether `name` is generated as a class: a struct, an exception, a service or a client. -/
def isClass (s : Symbols) (name : Text) : Bool :=
  decide (name ∈ s.structs) || decide (name ∈ s.exceptions) || decide (name ∈ s.services) ||
    decide (name ∈ s.clients)

theorem mem_types {s : Symbols} {name : Text} : name ∈ s.types ↔ name ∈ s.structs ∨ name ∈ s.exceptions :=
  NameSet.mem_union

theorem mem_clients {s : Symbols} {name : Text} :
    name ∈ s.clients ↔ ∃ service, service ∈ s.services.toList ∧ clientOf service = name :=
  NameSet.mem_ofList.trans List.mem_map

end Symbols
end ThriftModules.Idl
