import ThriftModules.Script.Mark

/-!
# Top-level statements of a script

* `Scanner` : the state of the scan, the byte offset, the bracket depth and the statement being read;
* `Scanner.step` : one character; it may complete a statement;
* `spans` : the raw statements of a script, each with the byte offset of its first character;
* `statements` : their texts, trimmed, the empty ones left out.

A statement starts at the first character that is neither an ASCII blank, nor a comment, nor a semicolon at depth zero,
nor a closing bracket. It ends before a semicolon at depth zero, and after a closing brace that brings the depth to zero
if what follows cannot continue it (`endsBlock`).
-/

namespace ThriftModules.Script

set_option autoImplicit false

/-! ## Brackets -/

def isOpening (c : Char) : Bool := c == '(' || c == '[' || c == '{'

def isClosing (c : Char) : Bool := c == ')' || c == ']' || c == '}'

/-- The characters that continue a statement after a closing brace. -/
def isContinuation (c : Char) : Bool := ";,)].([?:".toList.contains c

def continuationWords : List Text := ["else".toList, "catch".toList, "finally".toList, "while".toList]

/-- Whether a closing brace at depth zero ends its statement when `rest` follows it. -/
def endsBlock (rest : Text) : Bool :=
  match Text.trimStart rest with
  | [] => true
  | c :: r => !isContinuation c && !continuationWords.contains ((c :: r).takeWhile Text.isIdentChar)

/-! ## The scan -/

structure Span where
  /-- The byte offset of its first character. -/
  start : Nat
  text : Text
deriving DecidableEq, Repr

/-- The byte offset right after a stretch. -/
def Span.stop (s : Span) : Nat := s.start + Text.byteLength s.text

/-- A statement being read. -/
structure OpenStatement where
  /-- The byte offset of its first character. -/
  start : Nat
  /-- Its characters so far, the last one first. -/
  read : Text
deriving DecidableEq, Repr

def OpenStatement.span (s : OpenStatement) : Span := ⟨s.start, s.read.reverse⟩

structure Scanner where
  /-- The byte offset of the next character. -/
  offset : Nat
  depth : Nat
  /-- The statement being read, if one has started. -/
  current : Option OpenStatement
deriving DecidableEq, Repr

namespace Scanner

def start : Scanner := ⟨0, 0, none⟩

/-- The statement being read, as a stretch. -/
def pending (s : Scanner) : List Span := (s.current.map OpenStatement.span).toList

/-- The statement after one more character, if one has started. -/
def continued (s : Scanner) (c : Char) : Option OpenStatement :=
  s.current.map fun o => { o with read := c :: o.read }

/-- The statement after one more character, which starts one if none has started. -/
def extended (s : Scanner) (c : Char) : OpenStatement :=
  match s.current with
  | some o => { o with read := c :: o.read }
  | none => ⟨s.offset, [c]⟩

/-- One character of code, where `rest` follows it; the statements that it completes, and the new state. -/
def stepCode (s : Scanner) (c : Char) (rest : List Mark) : List Span × Scanner :=
  let next := s.offset + c.utf8Size
  if isOpening c then ([], ⟨next, s.depth + 1, some (s.extended c)⟩)
  else if isClosing c then
    if c == '}' && s.depth ≤ 1 && endsBlock (rest.map Mark.char) then
      (((s.continued c).map OpenStatement.span).toList, ⟨next, 0, none⟩)
    else ([], ⟨next, s.depth - 1, s.continued c⟩)
  else if c = ';' ∧ s.depth = 0 then (s.pending, ⟨next, 0, none⟩)
  else if Text.isAsciiBlank c then ([], ⟨next, s.depth, s.continued c⟩)
  else ([], ⟨next, s.depth, some (s.extended c)⟩)

/-- One character in its role. A literal starts a statement, a comment does not. -/
def step (s : Scanner) (m : Mark) (rest : List Mark) : List Span × Scanner :=
  match m.role with
  | .code => s.stepCode m.char rest
  | .literal => ([], ⟨s.offset + m.char.utf8Size, s.depth, some (s.extended m.char)⟩)
  | .comment => ([], ⟨s.offset + m.char.utf8Size, s.depth, s.continued m.char⟩)

/-- The statements that the remaining characters complete, the last one at the end of the script. -/
def run (s : Scanner) : List Mark → List Span
  | [] => s.pending
  | m :: rest =>
    let out := s.step m rest
    out.1 ++ out.2.run rest

end Scanner

/-- The raw statements of a script. -/
def spans (script : Text) : List Span := Scanner.start.run (marks script)

/-- The top-level statements of a script, without surrounding blanks and the semicolon. -/
def statements (script : Text) : List Text := ((spans script).map (Text.trim ·.text)).filter (· ≠ [])

end ThriftModules.Script
