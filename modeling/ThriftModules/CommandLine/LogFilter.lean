import ThriftModules.Text.Basic

/-!
# The log filter

* `levels` : the log levels;
* `directive` : the filter directive for the value of the log variable; a bare level, in any case, holds for both parts
  of the program, any other text is a directive itself.
-/

namespace ThriftModules.CommandLine.LogFilter

set_option autoImplicit false

def levels : List Text := ["trace".toList, "debug".toList, "info".toList, "warn".toList, "error".toList]

def lower (t : Text) : Text := t.map Char.toLower

def forLevel (level : Text) : Text := ["t2ng_cli=".toList, level, ",t2ng_core=".toList, level].flatten

def directive (value : Option Text) : Text :=
  let spec := Text.trim (value.getD [])
  if levels.contains (lower spec) then forLevel (lower spec)
  else if spec = [] then forLevel "info".toList
  else spec

end ThriftModules.CommandLine.LogFilter
