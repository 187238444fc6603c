import ThriftModules.Text.Basic

/-!
# Literals and comments of a script

* `Role` : whether a character of a script is code, or belongs to a literal or a comment;
* `MarkState` : where the marker stands;
* `marksFrom` : each character of a script with its role (`map_char_marksFrom`: no character is lost or added).

A line comment ends before its line feed. A literal ends at its quote; one that is not a template literal ends before a
line feed too, unless a backslash stands in front of it.
-/

namespace ThriftModules.Script

set_option autoImplicit false

/-- What a character of a script belongs to. -/
inductive Role where
  | code
  | literal
  | comment
deriving DecidableEq, Repr

structure Mark where
  char : Char
  role : Role
deriving DecidableEq, Repr

/-- Where the marker stands in a script. -/
inductive MarkState where
  | code
  /-- In a comment that ends with its line. -/
  | lineComment
  /-- In a comment between its two markers. -/
  | blockComment
  /-- In a literal that closes at `quote`. -/
  | literal (quote : Char)
deriving DecidableEq, Repr

/-- The characters of a script that is entered in the given state, each with its role. -/
def marksFrom : MarkState → Text → List Mark
  | .code, '/' :: '/' :: r => ⟨'/', .comment⟩ :: ⟨'/', .comment⟩ :: marksFrom .lineComment r
  | .code, '/' :: '*' :: r => ⟨'/', .comment⟩ :: ⟨'*', .comment⟩ :: marksFrom .blockComment r
  | .code, c :: r =>
    if Text.isQuote c then ⟨c, .literal⟩ :: marksFrom (.literal c) r else ⟨c, .code⟩ :: marksFrom .code r
  | .lineComment, c :: r =>
    if c = '\n' then ⟨c, .code⟩ :: marksFrom .code r else ⟨c, .comment⟩ :: marksFrom .lineComment r
  | .blockComment, '*' :: '/' :: r => ⟨'*', .comment⟩ :: ⟨'/', .comment⟩ :: marksFrom .code r
  | .blockComment, c :: r => ⟨c, .comment⟩ :: marksFrom .blockComment r
  | .literal quote, '\\' :: c :: r => ⟨'\\', .literal⟩ :: ⟨c, .literal⟩ :: marksFrom (.literal quote) r
  | .literal quote, c :: r =>
    if c = quote then ⟨c, .literal⟩ :: marksFrom .code r
    else if c = '\n' ∧ quote ≠ Text.backtick then ⟨c, .code⟩ :: marksFrom .code r
    else ⟨c, .literal⟩ :: marksFrom (.literal quote) r
  | _, [] => []

def marks (script : Text) : List Mark := marksFrom .code script

theorem map_char_marksFrom (state : MarkState) (script : Text) : (marksFrom state script).map Mark.char = script := by
  fun_induction marksFrom state script <;> simp_all

theorem map_char_marks_self (script : Text) : (marks script).map Mark.char = script := map_char_marksFrom .code script

end ThriftModules.Script
