import ThriftModules.Script.Statement
import ThriftModules.Text.Search
import ThriftModules.Idl.Namespace

/-!
# Assignments of a script to members of its namespace

* `Value` : the right-hand side, a function, an object or another expression;
* `Assignment` : `namespace.target = value`, with the statement as written and without the namespace;
* `Assignment.parse?` : the assignment that a statement is, if it is one;
* `assignments` : the assignments of a script, in order.
-/

namespace ThriftModules.Script

set_option autoImplicit false

inductive Value where
  /-- A function; what follows the keyword. -/
  | function (rest : Text)
  /-- An object; what stands between its outer braces. -/
  | object (body : Text)
  | other (expression : Text)
deriving DecidableEq, Repr

/-- What follows the keyword of a function expression. -/
def functionRest? (expression : Text) : Option Text :=
  match Text.stripStart? "function".toList expression with
  | some rest => if rest.head?.any Text.isIdentChar then none else some (Text.trimStart rest)
  | none => none

/-- What stands between the first and the last character of an expression, if they are braces. -/
def objectBody? : Text → Option Text
  | '{' :: rest => if rest.getLast? = some '}' then some rest.dropLast else none
  | _ => none

def Value.classify (expression : Text) : Value :=
  match functionRest? expression with
  | some rest => .function rest
  | none =>
    match objectBody? expression with
    | some body => .object body
    | none => .other expression

structure Assignment where
  /-- The assigned path below the namespace. -/
  target : Text
  unqualified : Text
  statement : Text
  value : Value
deriving DecidableEq, Repr

namespace Assignment

def isTargetChar (c : Char) : Bool := Text.isIdentChar c || c == '.'

/-- Whether a path names a member: it is not empty and neither starts nor ends with a dot. -/
def isMemberPath (target : Text) : Bool :=
  !target.isEmpty && target.head? != some '.' && target.getLast? != some '.'

/-- The right-hand side in a text that starts with a single equals sign, which no arrow or comparison is. -/
def rightHandSide? (text : Text) : Option Text :=
  match Text.trimStart text with
  | '=' :: rest => if rest.head?.any (fun c => c == '=' || c == '>') then none else some (Text.trimStart rest)
  | _ => none

/-- The assignment that a statement makes below `ns`, if it makes one. -/
def parse? (ns : Namespace) (statement : Text) : Option Assignment := do
  let unqualified ← Text.stripStart? (ns ++ ['.']) statement
  let target := unqualified.takeWhile isTargetChar
  if isMemberPath target then
    let expression ← rightHandSide? (unqualified.dropWhile isTargetChar)
    return ⟨target, unqualified, statement, .classify expression⟩
  else none

def root (a : Assignment) : Text := a.target.takeWhile (· != '.')

end Assignment

/-- The assignments of a script below `ns`, in script order. -/
def assignments (script : Text) (ns : Namespace) : List Assignment :=
  (statements script).filterMap (Assignment.parse? ns)

end ThriftModules.Script
