import ThriftModules.Text.Basic

/-!
# Searching a text: first occurrence, all occurrences, keywords

* `splitFirst? needle t` : what stands before and after the first occurrence of `needle` (`splitFirst?_eq_some`);
* `occurrences needle t` : the occurrences of `needle` met from left to right, none overlapping an earlier one, each
  with the text since the last one, the character right before it and what follows;
* `stripKeyword?` : what follows a keyword and the blanks after it;
* `keywordTails` : that text for every occurrence of the keyword that starts a word.
-/

namespace ThriftModules.Text

set_option autoImplicit false

/-! ## Occurrences -/

/-- What stands before the first occurrence of `needle` in `t`, and what follows it. -/
def splitFirst? (needle : Text) : Text → Option (Text × Text)
  | [] => (stripStart? needle []).map (([], ·))
  | c :: t =>
    match stripStart? needle (c :: t) with
    | some rest => some ([], rest)
    | none => (splitFirst? needle t).map fun s => (c :: s.1, s.2)

theorem splitFirst?_eq_some {needle t gap rest : Text} (h : splitFirst? needle t = some (gap, rest)) :
    t = gap ++ needle ++ rest := by
  fun_induction splitFirst? needle t generalizing gap with
  | case1 =>
    obtain ⟨r, hr, he⟩ := Option.map_eq_some_iff.1 h
    simp only [Prod.mk.injEq] at he
    obtain ⟨rfl, rfl⟩ := he
    simpa using stripStart?_eq_some_iff.1 hr
  | case2 c t r hr =>
    simp only [Option.some.injEq, Prod.mk.injEq] at h
    obtain ⟨rfl, rfl⟩ := h
    simpa using stripStart?_eq_some_iff.1 hr
  | case3 c t hn ih =>
    obtain ⟨⟨g, r⟩, hs, he⟩ := Option.map_eq_some_iff.1 h
    simp only [Prod.mk.injEq] at he
    obtain ⟨rfl, rfl⟩ := he
    simp [ih hs]

def contains (t needle : Text) : Bool := (splitFirst? needle t).isSome

structure Occurrence where
  /-- The text between the last occurrence, or the start of the line, and this one. -/
  gap : Text
  /-- The character right before, if there is one. -/
  before : Option Char
  after : Text
deriving DecidableEq, Repr

/-- The occurrences of `needle` in `t`, from left to right and none overlapping an earlier one, where `before` is the
character in front of `t`. The empty needle has none. -/
def occurrencesFrom (needle : Text) (before : Option Char) (t : Text) : List Occurrence :=
  if _hn : needle = [] then []
  else match _h : splitFirst? needle t with
    | none => []
    | some (gap, after) => ⟨gap, gap.getLast?.or before, after⟩ :: occurrencesFrom needle needle.getLast? after
termination_by t.length
decreasing_by
  have hs := congrArg List.length (splitFirst?_eq_some _h)
  have := List.length_pos_iff.2 _hn
  simp only [List.length_append] at hs
  omega

def occurrences (needle line : Text) : List Occurrence := occurrencesFrom needle none line

/-! ## Keywords -/

/-- What follows the blanks that `t` starts with, if there is one at least. -/
def afterBlanks? : Text → Option Text
  | [] => none
  | c :: t => if isBlank c then some (trimStart t) else none

/-- What follows `keyword` and at least one blank in a text that starts with them, without those blanks. -/
def stripKeyword? (keyword t : Text) : Option Text := (stripStart? keyword t).bind afterBlanks?

/-- For every occurrence of `keyword` that starts a word and is followed by a blank, the line after those blanks. -/
def keywordTails (keyword line : Text) : List Text :=
  (occurrences keyword line).filterMap fun o => if o.before.any isWordChar then none else afterBlanks? o.after

end ThriftModules.Text
