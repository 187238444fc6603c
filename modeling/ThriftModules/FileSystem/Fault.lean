import ThriftModules.Text.Basic

/-!
# Failures of file operations

* `OsError` : the failures of the operating system, with their number and their message;
* `ReadError` : a failure to read a file as text.
-/

namespace ThriftModules

set_option autoImplicit false

inductive OsError where
  | notFound
  | execFormat
  | accessDenied
  | busy
  | exists
  | notDirectory
  | isDirectory
  | invalid
  | nameTooLong
  | notEmpty
  | tooManyLinks
deriving DecidableEq, Repr

namespace OsError

def code : OsError → Nat
  | .notFound => 2
  | .execFormat => 8
  | .accessDenied => 13
  | .busy => 16
  | .exists => 17
  | .notDirectory => 20
  | .isDirectory => 21
  | .invalid => 22
  | .nameTooLong => 36
  | .notEmpty => 39
  | .tooManyLinks => 40

def description : OsError → String
  | .notFound => "No such file or directory"
  | .execFormat => "Exec format error"
  | .accessDenied => "Permission denied"
  | .busy => "Device or resource busy"
  | .exists => "File exists"
  | .notDirectory => "Not a directory"
  | .isDirectory => "Is a directory"
  | .invalid => "Invalid argument"
  | .nameTooLong => "File name too long"
  | .notEmpty => "Directory not empty"
  | .tooManyLinks => "Too many levels of symbolic links"

def message (e : OsError) : Text := e.description.toList ++ " (os error ".toList ++ Text.ofNat e.code ++ [')']

end OsError

inductive ReadError where
  | os (e : OsError)
  | notUtf8
deriving DecidableEq, Repr

def ReadError.message : ReadError → Text
  | .os e => e.message
  | .notUtf8 => "stream did not contain valid UTF-8".toList

end ThriftModules
