import Mathlib.Tactic.SplitIfs
import ThriftModules.Text.Basic

/-!
# The value of a string literal

* `units` : a text as UTF-16, which is what a string of a script is made of;
* `escape?` : what stands behind a backslash read, with its value; it never has more units than it is written with
  (`length_of_escape?`);
* `stringLiteral?`, `literalBody?` : a literal between single quotes, and what is read of it behind the first quote;
* `stringLiteral?_eq_iff` : a text between quotes is read as itself iff it has no quote, no backslash and no line end.

The escapes are those of a script that is not strict: those of two and four hexadecimal digits and of any number in
braces, those of up to three octal digits, the six letters, and every other character for itself; a line end behind a
backslash counts for nothing. Line separators may stand in a literal.
-/

namespace ThriftModules.Script

set_option autoImplicit false

/-! ## Code units -/

def unitsOfPoint (n : Nat) : List Nat :=
  if n < 0x10000 then [n] else [0xD800 + (n - 0x10000) / 0x400, 0xDC00 + (n - 0x10000) % 0x400]

def unitsOf (c : Char) : List Nat := unitsOfPoint c.toNat

def units (t : Text) : List Nat := t.flatMap unitsOf

theorem units_cons (c : Char) (t : Text) : units (c :: t) = unitsOf c ++ units t := List.flatMap_cons

theorem units_append (s t : Text) : units (s ++ t) = units s ++ units t := List.flatMap_append

theorem length_unitsOfPoint (n : Nat) : 1 ≤ (unitsOfPoint n).length ∧ (unitsOfPoint n).length ≤ 2 := by
  unfold unitsOfPoint
  split <;> simp

/-! ## Escapes -/

/-- The control characters that have a letter. -/
def letterEscape? : Char → Option Nat
  | 'b' => some 0x08
  | 't' => some 0x09
  | 'n' => some 0x0A
  | 'v' => some 0x0B
  | 'f' => some 0x0C
  | 'r' => some 0x0D
  | _ => none

def isOctal (c : Char) : Bool := '0' ≤ c && c ≤ '7'

/-- The octal digits behind the first one that belong to its escape, whose value is less than 256. -/
def moreOctal (first : Char) (rest : Text) : Text := (rest.take (if first ≤ '3' then 2 else 1)).takeWhile isOctal

def octalValue (digits : Text) : Nat := digits.foldl (fun n c => 8 * n + (c.toNat - '0'.toNat)) 0

def hexDigit? (c : Char) : Option Nat :=
  if '0' ≤ c ∧ c ≤ '9' then some (c.toNat - '0'.toNat)
  else if 'a' ≤ c ∧ c ≤ 'f' then some (c.toNat - 'a'.toNat + 10)
  else if 'A' ≤ c ∧ c ≤ 'F' then some (c.toNat - 'A'.toNat + 10)
  else none

/-- The value of hexadecimal digits, of which there is at least one. -/
def hexValue? (digits : Text) : Option Nat :=
  if digits = [] then none else (digits.mapM hexDigit?).map (List.foldl (fun n d => 16 * n + d) 0)

/-- An escape of `n` hexadecimal digits. -/
def hexEscape? (n : Nat) (t : Text) : Option (List Nat × Text) :=
  if t.length < n then none else (hexValue? (t.take n)).map fun value => ([value], t.drop n)

/-- A code point by its number in braces, the first of which has been read. -/
def bracedEscape? (t : Text) : Option (List Nat × Text) :=
  match hexValue? (t.takeWhile (· ≠ '}')), t.dropWhile (· ≠ '}') with
  | some n, _ :: behind => if n ≤ 0x10FFFF then some (unitsOfPoint n, behind) else none
  | _, _ => none

/-- The ends of a line, the separators among them. -/
def isLineTerminator (c : Char) : Bool := c == '\n' || c == '\r' || c == '\u2028' || c == '\u2029'

/-- A text without the line feed that belongs to a carriage return in front of it. -/
def dropLineFeed : Text → Text
  | '\n' :: rest => rest
  | t => t

/-- What stands behind a backslash: the value of the escape, and the text behind it. -/
def escape? : Text → Option (List Nat × Text)
  | [] => none
  | 'x' :: rest => hexEscape? 2 rest
  | 'u' :: '{' :: rest => bracedEscape? rest
  | 'u' :: rest => hexEscape? 4 rest
  | '\r' :: rest => some ([], dropLineFeed rest)
  | c :: rest =>
    if isLineTerminator c then some ([], rest)
    else if isOctal c then some ([octalValue (c :: moreOctal c rest)], rest.drop (moreOctal c rest).length)
    else match letterEscape? c with
      | some n => some ([n], rest)
      | none => some (unitsOf c, rest)

section
variable {t rest : Text} {value : List Nat}

theorem length_units_suffix (h : rest <:+ t) : (units rest).length ≤ (units t).length := by
  obtain ⟨front, rfl⟩ := h
  rw [units_append, List.length_append]
  omega

theorem hexEscape?_eq_some {n : Nat} (h : hexEscape? n t = some (value, rest)) : value.length = 1 ∧ rest <:+ t := by
  unfold hexEscape? at h
  split_ifs at h
  obtain ⟨v, -, hv⟩ := Option.map_eq_some_iff.1 h
  cases hv
  exact ⟨rfl, List.drop_suffix n t⟩

theorem bracedEscape?_eq_some (h : bracedEscape? t = some (value, rest)) : value.length ≤ 2 ∧ rest <:+ t := by
  unfold bracedEscape? at h
  split at h
  · next n c behind _ hdrop =>
    split_ifs at h
    cases h
    exact ⟨(length_unitsOfPoint n).2, (List.suffix_cons c rest).trans (hdrop ▸ List.dropWhile_suffix _)⟩
  · cases h

theorem dropLineFeed_suffix (t : Text) : dropLineFeed t <:+ t := by
  unfold dropLineFeed
  split
  · exact List.suffix_cons _ _
  · exact List.suffix_refl _

/-- An escape has at most as many units as it is written with behind the backslash. -/
theorem length_of_escape? (h : escape? t = some (value, rest)) :
    rest.length < t.length ∧ value.length + (units rest).length ≤ (units t).length := by
  -- an escape whose value has no more units than its first character
  have hfirst : ∀ {c : Char} {r : Text}, t = c :: r → value.length ≤ (unitsOf c).length → rest <:+ r →
      rest.length < t.length ∧ value.length + (units rest).length ≤ (units t).length := by
    rintro c r rfl hv hsuffix
    have hle := length_units_suffix hsuffix
    have hlen := hsuffix.length_le
    rw [units_cons, List.length_append, List.length_cons]
    omega
  have hone : ∀ c : Char, 1 ≤ (unitsOf c).length := fun c => (length_unitsOfPoint c.toNat).1
  unfold escape? at h
  split at h
  · cases h
  · next r =>
    obtain ⟨hv, hsuffix⟩ := hexEscape?_eq_some h
    exact hfirst rfl (hv ▸ hone _) hsuffix
  · next r =>
    obtain ⟨hv, hsuffix⟩ := bracedEscape?_eq_some h
    have hle := length_units_suffix hsuffix
    have hlen := hsuffix.length_le
    have hu := hone 'u'
    have hbrace := hone '{'
    rw [units_cons, units_cons]
    simp only [List.length_append, List.length_cons]
    omega
  · next r _ =>
    obtain ⟨hv, hsuffix⟩ := hexEscape?_eq_some h
    exact hfirst rfl (hv ▸ hone _) hsuffix
  · next r =>
    cases h
    exact hfirst rfl (Nat.zero_le _) (dropLineFeed_suffix r)
  · next c r _ _ _ _ =>
    split_ifs at h
    · cases h
      exact hfirst rfl (Nat.zero_le _) (List.suffix_refl _)
    · cases h
      exact hfirst rfl (hone c) (List.drop_suffix _ _)
    · split at h
      · cases h
        exact hfirst rfl (hone c) (List.suffix_refl _)
      · cases h
        exact hfirst rfl (Nat.le_refl _) (List.suffix_refl _)

end

example : escape? "u\x7b1F600\x7d.".toList = some ([0xD83D, 0xDE00], ['.']) := by decide

example : escape? "4012".toList = some ([0o40], "12".toList) := by decide

/-! ## Literals -/

/-- A literal from behind the single quote that opens it: its value, and the text behind the quote that closes it. No
line end may come first. -/
def literalBody? : Text → Option (List Nat × Text)
  | [] => none
  | '\'' :: rest => some ([], rest)
  | '\\' :: rest =>
    match _h : escape? rest with
    | none => none
    | some (value, behind) => (literalBody? behind).map fun r => (value ++ r.1, r.2)
  | c :: rest =>
    if c = '\n' ∨ c = '\r' then none else (literalBody? rest).map fun r => (unitsOf c ++ r.1, r.2)
termination_by t => t.length
decreasing_by
  · have hlt := (length_of_escape? _h).1
    simp only [List.length_cons]
    omega
  · simp

/-- A character that ends a literal, or is not read as itself. -/
def isSpecial (c : Char) : Bool := c == '\'' || c == '\\' || c == '\n' || c == '\r'

section
variable {c : Char} {t rest : Text} {value : List Nat}

theorem literalBody?_quote (t : Text) : literalBody? ('\'' :: t) = some ([], t) := by
  rw [literalBody?]

theorem literalBody?_cons (h : isSpecial c = false) :
    literalBody? (c :: t) = (literalBody? t).map fun r => (unitsOf c ++ r.1, r.2) := by
  simp only [isSpecial, Bool.or_eq_false_iff, beq_eq_false_iff_ne] at h
  obtain ⟨⟨⟨hquote, hbackslash⟩, hfeed⟩, hreturn⟩ := h
  rw [literalBody?]
  · rw [if_neg (not_or.2 ⟨hfeed, hreturn⟩)]
  · exact hquote
  · exact hbackslash

theorem literalBody?_backslash_eq_some (h : literalBody? ('\\' :: t) = some (value, rest)) :
    ∃ first behind more, escape? t = some (first, behind) ∧ literalBody? behind = some (more, rest) ∧
      value = first ++ more := by
  rw [literalBody?] at h
  split at h
  · cases h
  · next first behind he =>
    obtain ⟨⟨more, rest'⟩, hmore, hr⟩ := Option.map_eq_some_iff.1 h
    cases hr
    exact ⟨first, behind, more, he, hmore, rfl⟩

theorem literalBody?_cons_eq_some (hc : isSpecial c = false) (h : literalBody? (c :: t) = some (value, rest)) :
    ∃ more, literalBody? t = some (more, rest) ∧ value = unitsOf c ++ more := by
  rw [literalBody?_cons hc] at h
  obtain ⟨⟨more, rest'⟩, hmore, hr⟩ := Option.map_eq_some_iff.1 h
  cases hr
  exact ⟨more, hmore, rfl⟩

theorem literalBody?_lineEnd (h : c = '\n' ∨ c = '\r') : literalBody? (c :: t) = none := by
  rcases h with rfl | rfl <;> rw [literalBody?] <;> simp

theorem isSpecial_cases (c : Char) : c = '\'' ∨ c = '\\' ∨ (c = '\n' ∨ c = '\r') ∨ isSpecial c = false := by
  simp only [isSpecial, Bool.or_eq_false_iff, beq_eq_false_iff_ne]
  grind

/-- A literal is written with at least as many units as its value has, and its closing quote. -/
theorem length_of_literalBody? (h : literalBody? t = some (value, rest)) :
    value.length + (units rest).length + 1 ≤ (units t).length := by
  induction hn : t.length using Nat.strongRecOn generalizing t value with
  | _ n ih =>
  cases t with
  | nil =>
    rw [literalBody?] at h
    cases h
  | cons c t =>
    have hone := (length_unitsOfPoint c.toNat).1
    rw [units_cons, List.length_append, unitsOf]
    rw [List.length_cons] at hn
    rcases isSpecial_cases c with rfl | rfl | hend | hc
    · rw [literalBody?_quote] at h
      cases h
      rw [List.length_nil]
      omega
    · obtain ⟨first, behind, more, he, hmore, rfl⟩ := literalBody?_backslash_eq_some h
      obtain ⟨hlt, hle⟩ := length_of_escape? he
      have hbehind := ih _ (by omega) hmore rfl
      rw [List.length_append]
      omega
    · rw [literalBody?_lineEnd hend] at h
      cases h
    · obtain ⟨more, hmore, rfl⟩ := literalBody?_cons_eq_some hc h
      have hbehind := ih _ (by omega) hmore rfl
      rw [List.length_append, unitsOf]
      omega

/-- A literal that starts with a backslash has a value of fewer units. -/
theorem length_of_literalBody?_backslash (h : literalBody? ('\\' :: t) = some (value, rest)) :
    value.length + (units rest).length + 1 ≤ (units t).length := by
  obtain ⟨first, behind, more, he, hmore, rfl⟩ := literalBody?_backslash_eq_some h
  have hle := (length_of_escape? he).2
  have hbehind := length_of_literalBody? hmore
  rw [List.length_append]
  omega

/-- A text between quotes is read as itself iff it has no character of those that are not. -/
theorem literalBody?_eq_iff (t rest : Text) :
    literalBody? (t ++ '\'' :: rest) = some (units t, rest) ↔ ∀ c ∈ t, isSpecial c = false := by
  induction t with
  | nil => simp [literalBody?_quote, units]
  | cons c t ih =>
    rw [List.forall_mem_cons, ← ih, List.cons_append]
    constructor
    · intro h
      rcases isSpecial_cases c with rfl | rfl | hend | hc
      · rw [literalBody?_quote, Option.some.injEq, Prod.mk.injEq] at h
        have hlength := congrArg List.length h.2
        simp at hlength
        omega
      · have hlt := length_of_literalBody?_backslash h
        have hbackslash : (unitsOf '\\').length = 1 := rfl
        have hquote : (unitsOf '\'').length = 1 := rfl
        rw [units_cons, units_append, units_cons] at hlt
        simp only [List.length_append] at hlt
        omega
      · rw [literalBody?_lineEnd hend] at h
        cases h
      · obtain ⟨more, hmore, hvalue⟩ := literalBody?_cons_eq_some hc h
        rw [units_cons] at hvalue
        rw [hmore, List.append_cancel_left hvalue]
        exact ⟨hc, rfl⟩
    · rintro ⟨hc, h⟩
      rw [literalBody?_cons hc, h, units_cons]
      rfl

/-- A literal between single quotes: its value, and the text behind it. -/
def stringLiteral? : Text → Option (List Nat × Text)
  | '\'' :: rest => literalBody? rest
  | _ => none

def quoted (t : Text) : Text := '\'' :: (t ++ ['\''])

/-- A text between single quotes is one literal with the text as its value, whatever follows, iff it has no character
that ends a literal or is not read as itself. -/
theorem stringLiteral?_eq_iff (t rest : Text) :
    stringLiteral? (quoted t ++ rest) = some (units t, rest) ↔ ∀ c ∈ t, isSpecial c = false := by
  rw [← literalBody?_eq_iff t rest, quoted, List.cons_append, List.append_assoc]
  rfl

end

end ThriftModules.Script
