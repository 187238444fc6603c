import ThriftModules.Text.Search

/-!
# Qualified names and comments in a line

* `startsPath` : whether a qualifier behind the given character starts a path;
* `Quoted` : what happens to a qualifier right behind a quote;
* `stripQualifier` : the line without the qualifiers that start a path;
* `qualifiedReferences` : the names behind the qualifiers that start a path outside quotes;
* `stripBlockComments` : the line without the block comments that close on it.
-/

namespace ThriftModules.Module

set_option autoImplicit false

open Text (Occurrence)

/-- Whether a qualifier starts a path, and does not continue a name or a longer path, when `before` stands in front. -/
def startsPath (before : Option Char) : Bool := before.all fun c => !Text.isIdentChar c && c != '.'

/-- What happens to a qualifier right behind a quote. -/
inductive Quoted where
  /-- It is removed like any other. -/
  | removed
  | kept
deriving DecidableEq, Repr

def Quoted.removes (quoted : Quoted) (o : Occurrence) : Bool :=
  startsPath o.before && !(quoted == .kept && o.before.any Text.isQuote)

/-- What occurrences of `needle` leave of their line: what stands between them, and the needle where it is kept. -/
def dropOccurrences (removes : Occurrence → Bool) (needle line : Text) : Text :=
  let found := Text.occurrences needle line
  found.flatMap (fun o => o.gap ++ if removes o then [] else needle) ++
    match found.getLast? with
    | some o => o.after
    | none => line

/-- The line without each `qualifier.` that starts a path. -/
def stripQualifier (qualifier : Text) (quoted : Quoted) (line : Text) : Text :=
  dropOccurrences quoted.removes (qualifier ++ ['.']) line

/-- The names that follow each `qualifier.` that starts a path outside quotes. -/
def qualifiedReferences (qualifier line : Text) : List Text :=
  (((Text.occurrences (qualifier ++ ['.']) line).filter (Quoted.kept.removes ·)).map (Text.takeWord ·.after)).filter
    (· ≠ [])

/-- The line without the block comments that open and close on it. -/
def stripBlockComments (line : Text) : Text :=
  match _h : Text.splitFirst? "/*".toList line with
  | none => line
  | some (gap, opened) =>
    match _h' : Text.splitFirst? "*/".toList opened with
    | none => line
    | some (_, rest) => gap ++ stripBlockComments rest
termination_by line.length
decreasing_by
  have h1 := congrArg List.length (Text.splitFirst?_eq_some _h)
  have h2 := congrArg List.length (Text.splitFirst?_eq_some _h')
  simp at h1 h2
  omega

end ThriftModules.Module
