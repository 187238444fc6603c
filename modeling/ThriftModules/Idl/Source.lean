import ThriftModules.FileSystem.Path
import ThriftModules.Idl.Line

/-!
# Interface sources

* `Source` : one Thrift file, its path and its lines without comments;
* `Source.ofText` : the source of a text (`length_codeLines`: one line per line of the text);
* `Source.codeLines`, `Source.bareLines` : the two views of its lines.
-/

namespace ThriftModules.Idl

set_option autoImplicit false

/-- One Thrift file. -/
structure Source where
  /-- The path it was read from. -/
  path : Path
  cells : List (List Cell)
deriving DecidableEq, Repr

namespace Source

def ofText (path : Path) (text : Text) : Source := ⟨path, scanLines false text.lines⟩

def identifier (s : Source) : Text := s.path.display

/-- The lines without comments, literals as written. -/
def codeLines (s : Source) : List Text := s.cells.map codeOf

/-- The lines without comments, with a blank for each character inside a literal. -/
def bareLines (s : Source) : List Text := s.cells.map bareOf

theorem length_codeLines (path : Path) (text : Text) : (ofText path text).codeLines.length = text.lines.length := by
  simp [ofText, codeLines, length_scanLines]

theorem length_bareLines (path : Path) (text : Text) : (ofText path text).bareLines.length = text.lines.length := by
  simp [ofText, bareLines, length_scanLines]

end Source
end ThriftModules.Idl
