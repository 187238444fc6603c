import ThriftModules.Idl.SearchPath
import ThriftModules.Proofs.Text.Found
import ThriftModules.Proofs.Text.NameSets

/-!
# What a source declares

* `Declares` : a line has a keyword at the start of a word, a gap behind it, and then a whole word;
* `DeclaresNamespace` : it has the keyword `namespace` there, the scope `js`, and then a run of namespace characters;
* `mem_declared_iff`, `mem_namespaces_iff` : a source declares what its bare lines declare, and nothing else;
* `declarations_exact` : so what it declares, and its namespace or the number of its namespaces, depends on the set of
  its bare lines alone.

A keyword may stand in what another occurrence declares: `enum enum A` declares `enum` and `A`.
-/

namespace ThriftModules.Idl

set_option autoImplicit false

open Text (IsWord IsGap IsUnbordered)

/-! ## Declarations of a line -/

/-- The line has the keyword, which no word character precedes, then a gap, and then the whole word. -/
def Declares (keyword line word : Text) : Prop :=
  IsWord word ∧ ∃ front gap rest, line = front ++ (keyword ++ (gap ++ (word ++ rest))) ∧
    front.getLast?.any Text.isWordChar = false ∧ IsGap gap ∧ rest.head?.any Text.isWordChar = false

/-- The line has the keyword `namespace`, which no word character precedes, then a gap, the scope `js` and a gap, and
then the value, as many word characters and dots as there are. -/
def DeclaresNamespace (line : Text) (value : Namespace) : Prop :=
  value ≠ [] ∧ (∀ c ∈ value, isNamespaceChar c = true) ∧ ∃ front gap gap' rest,
    line = front ++ ("namespace".toList ++ (gap ++ ("js".toList ++ (gap' ++ (value ++ rest))))) ∧
      front.getLast?.any Text.isWordChar = false ∧ IsGap gap ∧ IsGap gap' ∧ rest.head?.any isNamespaceChar = false

section
variable {keyword line word : Text} {value : Namespace} {p : Char → Bool}

/-- The longest start of a text that a class of characters makes up. -/
theorem takeWhile_eq_iff {t w : Text} :
    t.takeWhile p = w ↔ ∃ rest, t = w ++ rest ∧ (∀ c ∈ w, p c = true) ∧ rest.head?.any p = false := by
  constructor
  · rintro rfl
    refine ⟨t.dropWhile p, List.takeWhile_append_dropWhile.symm, fun c hc => List.mem_takeWhile_imp hc, ?_⟩
    have hstop := List.head?_dropWhile_not p t
    cases hd : (t.dropWhile p).head? with
    | none => rfl
    | some c =>
      rw [hd] at hstop
      exact hstop
  · rintro ⟨rest, rfl, hw, hstop⟩
    rw [List.takeWhile_append_of_pos hw]
    cases rest with
    | nil => rw [List.takeWhile_nil, List.append_nil]
    | cons c rest => rw [List.takeWhile_cons_of_neg (by simpa using hstop), List.append_nil]

/-- The words that follow a keyword are those that the line declares with it. -/
theorem mem_declaredWords_iff (hne : keyword ≠ []) (hkeyword : IsUnbordered keyword) :
    word ∈ declaredWords keyword line ↔ Declares keyword line word := by
  rw [declaredWords, List.mem_filter, List.mem_map]
  constructor
  · rintro ⟨⟨tail, htail, hword⟩, hnonempty⟩
    obtain ⟨front, gap, hline, hfront, hgap, -⟩ := (Text.mem_keywordTails_iff hne hkeyword).1 htail
    obtain ⟨rest, rfl, hchars, hstop⟩ := takeWhile_eq_iff.1 hword
    exact ⟨⟨of_decide_eq_true hnonempty, hchars⟩, front, gap, rest, hline, hfront, hgap, hstop⟩
  · rintro ⟨hword, front, gap, rest, hline, hfront, hgap, hstop⟩
    refine ⟨⟨word ++ rest, (Text.mem_keywordTails_iff hne hkeyword).2 ⟨front, gap, hline, hfront, hgap, ?_⟩,
      takeWhile_eq_iff.2 ⟨rest, rfl, hword.2, hstop⟩⟩, decide_eq_true hword.1⟩
    exact hword.trimStart_append rest

theorem isBlank_of_isNamespaceChar {c : Char} (h : isNamespaceChar c = true) : Text.isBlank c = false := by
  rw [isNamespaceChar, Bool.or_eq_true, beq_iff_eq] at h
  rcases h with h | rfl
  · exact Text.isBlank_of_isWordChar h
  · decide

/-- The values that follow `namespace js` are those that the line declares. -/
theorem mem_namespaceValues_iff : value ∈ namespaceValues line ↔ DeclaresNamespace line value := by
  have htail : ∀ {tail}, tail ∈ Text.keywordTails "namespace".toList line ↔
      ∃ front gap, line = front ++ ("namespace".toList ++ (gap ++ tail)) ∧
        front.getLast?.any Text.isWordChar = false ∧ IsGap gap ∧ Text.trimStart tail = tail :=
    Text.mem_keywordTails_iff (by decide) (by decide)
  rw [namespaceValues, List.mem_filter, List.mem_map]
  constructor
  · rintro ⟨⟨after, hafter, hvalue⟩, hnonempty⟩
    obtain ⟨tail, hmem, hscope⟩ := List.mem_filterMap.1 hafter
    obtain ⟨front, gap, hline, hfront, hgap, -⟩ := htail.1 hmem
    obtain ⟨gap', hgap', rfl, -⟩ := Text.stripKeyword?_eq_some_iff.1 hscope
    obtain ⟨rest, rfl, hchars, hstop⟩ := takeWhile_eq_iff.1 hvalue
    exact ⟨of_decide_eq_true hnonempty, hchars, front, gap, gap', rest, hline, hfront, hgap, hgap', hstop⟩
  · rintro ⟨hnonempty, hchars, front, gap, gap', rest, hline, hfront, hgap, hgap', hstop⟩
    have hscope : IsWord "js".toList := by decide
    have htrim : Text.trimStart (value ++ rest) = value ++ rest := by
      refine Text.trimStart_eq_self fun c hc => ?_
      rw [List.head?_append_of_ne_nil _ hnonempty] at hc
      exact isBlank_of_isNamespaceChar (hchars c (List.mem_of_head? hc))
    refine ⟨⟨value ++ rest, List.mem_filterMap.2 ⟨"js".toList ++ (gap' ++ (value ++ rest)), ?_, ?_⟩,
      takeWhile_eq_iff.2 ⟨rest, rfl, hchars, hstop⟩⟩, decide_eq_true hnonempty⟩
    · exact htail.2 ⟨front, gap, hline, hfront, hgap, hscope.trimStart_append _⟩
    · exact Text.stripKeyword?_eq_some_iff.2 ⟨gap', hgap', rfl, htrim⟩

end

/-! ## Declarations of a source -/

def Source.declaredNamespaces (s : Source) : Set Namespace := {value | ∃ line ∈ s.bareLines, DeclaresNamespace line value}

section
variable {s : Source} {word : Text} {value : Namespace} {origin : Text}

/-- A keyword does not overlap itself, so that no occurrence is passed over. -/
theorem Kind.keyword_unbordered (kind : Kind) : kind.keyword ≠ [] ∧ IsUnbordered kind.keyword := by
  cases kind <;> decide

theorem mem_declared_iff (kind : Kind) :
    word ∈ s.declared kind ↔ ∃ line ∈ s.bareLines, Declares kind.keyword line word := by
  obtain ⟨hne, hkeyword⟩ := kind.keyword_unbordered
  rw [Source.declared, NameSet.mem_ofList, List.mem_flatMap]
  simp only [mem_declaredWords_iff hne hkeyword]

theorem mem_namespaces_iff : value ∈ s.namespaces ↔ ∃ line ∈ s.bareLines, DeclaresNamespace line value := by
  rw [Source.namespaces, NameSet.mem_ofList, List.mem_flatMap]
  simp only [mem_namespaceValues_iff]

theorem members_namespaces (s : Source) : s.namespaces.members = s.declaredNamespaces :=
  Set.ext fun _ => mem_namespaces_iff

theorem ownNamespace_eq_ok_iff : s.ownNamespace origin = .ok value ↔ s.declaredNamespaces = {value} := by
  rw [← members_namespaces, NameSet.members_eq_singleton_iff, ← Source.namespace?_eq_ok_iff, Source.ownNamespace]
  split <;> simp_all

/-- A source without a namespace of its own is reported with the number of those that it declares. -/
theorem ownNamespace_eq_error_iff {e : SourceError} :
    s.ownNamespace origin = .error e ↔
      (∀ value, s.declaredNamespaces ≠ {value}) ∧ e = .namespaceCount origin s.declaredNamespaces.ncard := by
  have hsingle : (∀ value, s.declaredNamespaces ≠ {value}) ↔ s.namespaces.size ≠ 1 := by
    rw [← members_namespaces, ← NameSet.ncard_members, ne_eq, Set.ncard_eq_one, not_exists]
  rw [hsingle, ← members_namespaces, NameSet.ncard_members, Source.ownNamespace]
  cases hns : s.namespace? with
  | ok value =>
    rw [Source.namespace?_eq_ok_iff] at hns
    simp [NameSet.size, hns]
  | error found =>
    obtain ⟨hne, rfl⟩ := Source.namespace?_eq_error_iff.1 hns
    simp [hne, eq_comm]

end

/-- A source declares the words that a keyword stands in front of on its bare lines. Its namespace is the only value of
`namespace js` on them, and if there is none or more than one, their number is reported. Neither the order of the lines
nor their number matters. -/
theorem declarations_exact (s : Source) :
    (∀ kind word, word ∈ s.declared kind ↔ ∃ line ∈ s.bareLines, Declares kind.keyword line word) ∧
    s.declaredNamespaces.Finite ∧
    (∀ origin value, s.ownNamespace origin = .ok value ↔ s.declaredNamespaces = {value}) ∧
    (∀ origin e, s.ownNamespace origin = .error e ↔
      (∀ value, s.declaredNamespaces ≠ {value}) ∧ e = .namespaceCount origin s.declaredNamespaces.ncard) ∧
    ∀ s' : Source, (∀ line, line ∈ s'.bareLines ↔ line ∈ s.bareLines) →
      (∀ kind, s'.declared kind = s.declared kind) ∧ ∀ origin, s'.ownNamespace origin = s.ownNamespace origin := by
  refine ⟨fun kind word => mem_declared_iff kind, ?_, fun _ _ => ownNamespace_eq_ok_iff,
    fun _ _ => ownNamespace_eq_error_iff, fun s' hlines => ⟨fun kind => ?_, fun origin => ?_⟩⟩
  · rw [← members_namespaces]
    exact s.namespaces.finite_members
  · refine NameSet.eq_of_mem_iff fun word => ?_
    rw [mem_declared_iff, mem_declared_iff]
    simp only [hlines]
  · have hnamespaces : s'.namespaces = s.namespaces := NameSet.eq_of_mem_iff fun value => by
      rw [mem_namespaces_iff, mem_namespaces_iff]
      simp only [hlines]
    rw [Source.ownNamespace, Source.ownNamespace, Source.namespace?, Source.namespace?, hnamespaces]

/-- The same declarations on one line and on several, in another order and with one of them twice. -/
theorem declarations_exact_reordered :
    let once := Source.ofText [] "enum enum A\nnamespace js a.b\nstruct\tP \x7b\x7d".toList
    let again := Source.ofText [] "namespace js a.b\nstruct\tP \x7b\x7d\nenum enum A\nnamespace js a.b".toList
    (once.declared .enumeration).toList = ["A".toList, "enum".toList] ∧
      (∀ line, line ∈ again.bareLines ↔ line ∈ once.bareLines) ∧
      (∀ kind, again.declared kind = once.declared kind) ∧ once.declaredNamespaces = {"a.b".toList} ∧
      ∀ origin, again.ownNamespace origin = .ok "a.b".toList := by
  intro once again
  have hfew : ∀ line ∈ again.bareLines, line ∈ once.bareLines := by decide +kernel
  have hall : ∀ line ∈ once.bareLines, line ∈ again.bareLines := by decide +kernel
  have hlines : ∀ line, line ∈ again.bareLines ↔ line ∈ once.bareLines := fun line => ⟨hfew line, hall line⟩
  obtain ⟨-, -, hns, -, hsame⟩ := declarations_exact once
  have hown : once.ownNamespace [] = .ok "a.b".toList := by decide +kernel
  have hdeclared := (hns [] "a.b".toList).1 hown
  exact ⟨by decide +kernel, hlines, (hsame again hlines).1, hdeclared, fun origin =>
    ((hsame again hlines).2 origin).trans ((hns origin "a.b".toList).2 hdeclared)⟩

end ThriftModules.Idl
