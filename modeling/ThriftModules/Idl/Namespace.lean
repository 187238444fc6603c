import ThriftModules.Idl.Symbols

/-!
# The script namespace of a source

* `Namespace` : the dotted name under which the generated script keeps the declarations of one source;
* `Source.namespaces` : the distinct values of `namespace js` in a source;
* `Source.namespace?` : the value, if there is exactly one (`namespace?_eq_ok_iff`), else their number.
-/

namespace ThriftModules

set_option autoImplicit false

/-- The dotted name under which the generated script keeps the declarations of one source. -/
abbrev Namespace := Text

namespace Idl

def isNamespaceChar (c : Char) : Bool := Text.isWordChar c || c == '.'

def namespaceValues (line : Text) : List Namespace :=
  ((Text.keywordTails "namespace".toList line).filterMap (Text.stripKeyword? "js".toList)).map
    (List.takeWhile isNamespaceChar) |>.filter (· ≠ [])

def Source.namespaces (s : Source) : NameSet := .ofList (s.bareLines.flatMap namespaceValues)

/-- The value that a source declares for `namespace js`, or the number of its distinct values if that is not one. -/
def Source.namespace? (s : Source) : Except Nat Namespace :=
  match s.namespaces.toList with
  | [value] => .ok value
  | values => .error values.length

theorem Source.namespace?_eq_ok_iff {s : Source} {value : Namespace} :
    s.namespace? = .ok value ↔ s.namespaces.toList = [value] := by
  unfold Source.namespace?
  split <;> simp_all

theorem Source.namespace?_eq_error_iff {s : Source} {n : Nat} :
    s.namespace? = .error n ↔ n ≠ 1 ∧ s.namespaces.size = n := by
  unfold Source.namespace? NameSet.size
  split
  · simp_all; omega
  · next values hne =>
    simp only [Except.error.injEq]
    refine ⟨fun h => ⟨fun h1 => ?_, h⟩, fun h => h.2⟩
    obtain ⟨value, hv⟩ := List.length_eq_one_iff.1 (h.trans h1)
    exact hne value hv

end Idl
end ThriftModules
