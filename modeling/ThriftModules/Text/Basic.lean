/-!
# Text: characters, words, trimming and lines

* `Text` : a text as the list of its characters; the order of texts compares them character by character, which is
  the order of their UTF-8 bytes;
* `isWordChar`, `isIdentChar`, `isQuote` : the character classes of words, script identifiers and literals;
* `isBlank`, `isAsciiBlank` : the white-space characters, and the five of them that separate script tokens;
* `trimStart`, `trimEnd`, `trim` : blanks removed at the ends;
* `takeWord` : the longest word that a text starts with;
* `lines`, `unlines` : the lines of a text and the text of given lines.
-/

namespace ThriftModules

set_option autoImplicit false

abbrev Text := List Char

namespace Text

-- decided on the characters of the text, where a decision over all characters would not end
instance (priority := high) (t : Text) (p : Char → Prop) [DecidablePred p] : Decidable (∀ c ∈ t, p c) :=
  List.decidableBAll p t

instance (priority := high) (t : Text) (p : Char → Prop) [DecidablePred p] : Decidable (∃ c ∈ t, p c) :=
  List.decidableBEx p t

/-! ## Character classes -/

def isWordChar (c : Char) : Bool := c.isAlphanum || c == '_'

def isIdentChar (c : Char) : Bool := isWordChar c || c == '$'

/-- The quote that opens a template literal. -/
def backtick : Char := '\x60'

/-- The three characters that open a literal. -/
def isQuote (c : Char) : Bool := c == '"' || c == '\'' || c == backtick

def blankRanges : List (Nat × Nat) :=
  [(0x09, 0x0D), (0x20, 0x20), (0x85, 0x85), (0xA0, 0xA0), (0x1680, 0x1680), (0x2000, 0x200A), (0x2028, 0x2029),
    (0x202F, 0x202F), (0x205F, 0x205F), (0x3000, 0x3000)]

def isBlank (c : Char) : Bool := blankRanges.any fun r => r.1 ≤ c.toNat && c.toNat ≤ r.2

def isAsciiBlank (c : Char) : Bool :=
  c == ' ' || c == '\t' || c == '\n' || c == '\x0c' || c == '\r'

theorem isBlank_of_isAsciiBlank {c : Char} (h : isAsciiBlank c = true) : isBlank c = true := by
  simp only [isAsciiBlank, Bool.or_eq_true, beq_iff_eq] at h
  rcases h with (((h | h) | h) | h) | h <;> subst h <;> decide

/-! ## Words and trimming -/

def takeWord (t : Text) : Text := t.takeWhile isWordChar

def trimStart (t : Text) : Text := t.dropWhile isBlank

def trimEnd (t : Text) : Text := (t.reverse.dropWhile isBlank).reverse

def trim (t : Text) : Text := trimEnd (trimStart t)

def stripStart? : Text → Text → Option Text
  | [], t => some t
  | _ :: _, [] => none
  | c :: p, d :: t => if c = d then stripStart? p t else none

theorem stripStart?_eq_some_iff {p t r : Text} : stripStart? p t = some r ↔ t = p ++ r := by
  fun_induction stripStart? p t with
  | case1 t => simp
  | case2 => simp
  | case3 p d t ih => simp [ih]
  | case4 c p d t h => simp; exact fun e _ => h e.symm

def startsWith (t p : Text) : Bool := (stripStart? p t).isSome

def endsWith (t s : Text) : Bool := startsWith t.reverse s.reverse

/-! ## Lines -/

/-- The lines of a text: each ends at a line feed, with one carriage return before it dropped; what follows the last
line feed is a line unless it is empty. -/
def lines : Text → List Text
  | [] => []
  | '\n' :: r => [] :: lines r
  | '\r' :: '\n' :: r => [] :: lines r
  | c :: r =>
    match lines r with
    | [] => [[c]]
    | l :: ls => (c :: l) :: ls

def unlines (ls : List Text) : Text := ls.flatMap (· ++ ['\n'])

def join (separator : Text) (ts : List Text) : Text := List.intercalate separator ts

/-! ## Measures and numbers -/

def byteLength : Text → Nat
  | [] => 0
  | c :: t => c.utf8Size + byteLength t

def ofNat (n : Nat) : Text := Nat.toDigits 10 n

/-- The decimal digits of an integer, after a minus sign if it is negative. -/
def ofInt : Int → Text
  | .ofNat n => ofNat n
  | .negSucc n => '-' :: ofNat (n + 1)

end Text
end ThriftModules
