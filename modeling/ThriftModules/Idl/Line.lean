import ThriftModules.Text.Basic

/-!
# Interface lines without comments

* `Cell` : a kept character in both views of a line, as code (literals as written) and bare (literals blanked);
* `LineState` : where the scanner stands: in code, in a block comment, or in a literal;
* `scanLine` : the cells of one line, and whether a block comment is still open at its end;
* `scanLines` : the lines of a file, the open comment carried from line to line.

A comment from `//` or `#` to the end of its line leaves nothing; a closed block comment leaves one blank. A literal
opens at either quote and closes at the same quote or at the end of its line; a backslash in it takes the next
character with it.
-/

namespace ThriftModules.Idl

set_option autoImplicit false

/-- A character of a line, as it stands in the code and in the bare view. -/
structure Cell where
  code : Char
  /-- The character, or a blank if it stands inside a literal. -/
  bare : Char
deriving DecidableEq, Repr

namespace Cell

def plain (c : Char) : Cell := ⟨c, c⟩

def hidden (c : Char) : Cell := ⟨c, ' '⟩

end Cell

/-- Where the scanner stands inside a line. -/
inductive LineState where
  | code
  | comment
  /-- Inside a literal that closes at `quote`. -/
  | literal (quote : Char)
deriving DecidableEq, Repr

/-- The two quotes that open a literal. -/
def isLiteralQuote (c : Char) : Bool := c == '"' || c == '\''

structure ScannedLine where
  cells : List Cell
  /-- Whether a block comment is open at the end of the line. -/
  inComment : Bool
deriving DecidableEq, Repr

def ScannedLine.cons (cell : Cell) (line : ScannedLine) : ScannedLine := { line with cells := cell :: line.cells }

/-- The kept characters of a line that is entered in the given state. -/
def scanLine : LineState → Text → ScannedLine
  | .comment, '*' :: '/' :: r => (scanLine .code r).cons (.plain ' ')
  | .comment, _ :: r => scanLine .comment r
  | .code, '#' :: _ => ⟨[], false⟩
  | .code, '/' :: '/' :: _ => ⟨[], false⟩
  | .code, '/' :: '*' :: r => scanLine .comment r
  | .code, c :: r => (scanLine (if isLiteralQuote c then .literal c else .code) r).cons (.plain c)
  | .literal quote, '\\' :: c :: r => ((scanLine (.literal quote) r).cons (.hidden c)).cons (.hidden '\\')
  | .literal quote, c :: r =>
    if c = quote then (scanLine .code r).cons (.plain c) else (scanLine (.literal quote) r).cons (.hidden c)
  | .comment, [] => ⟨[], true⟩
  | .code, [] => ⟨[], false⟩
  | .literal _, [] => ⟨[], false⟩

/-- A character of code is kept, if no comment and no literal starts with it. -/
theorem scanLine_code_cons {c : Char} {t : Text} (hquote : isLiteralQuote c = false) (hhash : c ≠ '#')
    (hmarker : c = '/' → t.head? ≠ some '/' ∧ t.head? ≠ some '*') :
    scanLine .code (c :: t) = (scanLine .code t).cons (.plain c) := by
  rw [scanLine, hquote, if_neg (by decide)]
  · exact hhash
  · rintro r hc rfl
    exact (hmarker hc).1 rfl
  · rintro r hc rfl
    exact (hmarker hc).2 rfl

/-- A character of a comment is dropped, if it does not close the comment. -/
theorem scanLine_comment_cons {c : Char} {t : Text} (h : c = '*' → t.head? ≠ some '/') :
    scanLine .comment (c :: t) = scanLine .comment t := by
  rw [scanLine]
  rintro r rfl rfl
  exact h rfl rfl

def entryState (inComment : Bool) : LineState := if inComment then .comment else .code

/-- The cells of each line, where `inComment` says whether a block comment is open before the first. -/
def scanLines (inComment : Bool) : List Text → List (List Cell)
  | [] => []
  | line :: rest =>
    let scanned := scanLine (entryState inComment) line
    scanned.cells :: scanLines scanned.inComment rest

/-- The characters of a line with its literals as written. -/
def codeOf (cells : List Cell) : Text := cells.map Cell.code

/-- The characters of a line with its literals blanked. -/
def bareOf (cells : List Cell) : Text := cells.map Cell.bare

theorem length_scanLines (inComment : Bool) (lines : List Text) :
    (scanLines inComment lines).length = lines.length := by
  induction lines generalizing inComment with
  | nil => rfl
  | cons line rest ih => simp [scanLines, ih]

theorem length_codeOf (cells : List Cell) : (codeOf cells).length = (bareOf cells).length := by
  simp [codeOf, bareOf]

theorem codeOf_append (a b : List Cell) : codeOf (a ++ b) = codeOf a ++ codeOf b := List.map_append

theorem bareOf_append (a b : List Cell) : bareOf (a ++ b) = bareOf a ++ bareOf b := List.map_append

theorem codeOf_plain (t : Text) : codeOf (t.map .plain) = t := by
  rw [codeOf, List.map_map]
  exact List.map_id t

theorem bareOf_plain (t : Text) : bareOf (t.map .plain) = t := by
  rw [bareOf, List.map_map]
  exact List.map_id t

theorem codeOf_hidden (t : Text) : codeOf (t.map .hidden) = t := by
  rw [codeOf, List.map_map]
  exact List.map_id t

theorem bareOf_hidden (t : Text) : bareOf (t.map .hidden) = List.replicate t.length ' ' := by
  rw [bareOf, List.map_map]
  exact List.map_const'

end ThriftModules.Idl
