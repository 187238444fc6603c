import ThriftModules.Idl.Includes

/-!
# What a module is composed from, and what composing gives

* `Context` : everything known about a source before its generated code is composed;
* `Context.modulePath` : the path that a module is imported by, the project and the namespace;
* `Missing` : a declared name without generated code, with its message;
* `Composed` : the text of a module and the names left out of it.
-/

namespace ThriftModules.Module

set_option autoImplicit false

open Idl (Source Symbols Includes Kind)

/-- Everything known about a source before its generated code is composed. -/
structure Context where
  /-- What the import path of every module starts with. -/
  project : Text
  source : Source
  ns : Namespace
  symbols : Symbols
  includes : Includes

def Context.modulePath (ctx : Context) (ns : Namespace) : Text := ctx.project ++ '/' :: ns

/-- A declared name without generated code. -/
structure Missing where
  kind : Kind
  name : Text
deriving DecidableEq, Repr

def Missing.label (m : Missing) : Text := m.kind.keyword ++ ' ' :: m.name

def Missing.message (m : Missing) : Text := m.label ++ " has no generated code, left out of the module".toList

structure Composed where
  text : Text
  /-- The declared names left out of it. -/
  missing : List Missing
deriving DecidableEq, Repr

end ThriftModules.Module
