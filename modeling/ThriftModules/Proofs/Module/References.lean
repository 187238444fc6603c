import Mathlib.Data.List.Sort
import Mathlib.Data.List.Flatten
import ThriftModules.Proofs.Idl.Insertions
import ThriftModules.Proofs.Module.CrossImports
import ThriftModules.Proofs.Module.Meaning
import ThriftModules.Proofs.Module.OnePass
import ThriftModules.Proofs.Text.NameSets

/-!
# References in namespace lines

* `referencesFrom` : the references of a text behind a given character, cut in two by a blank
  (`referencesFrom_append_blank`);
* `mem_qualifiedReferences_dotted` : a dotted name refers to its second word behind its first one, and to nothing else;
* `Mentions` : what a namespace line refers to, read off its scope and its name (`mem_qualifiedReferences_text`);
* `referencedNames_eq_of_text_eq` : a source that refers to more has a longer module;
* `namespace_lines_import_iff` : namespace lines leave a declaration module as it is exactly if they refer to nothing
  that the source does not refer to.

The search for references does not know what a line declares: a name like `common.model` is read like the type `model`
of the include `common`.
-/

namespace ThriftModules.Module

set_option autoImplicit false

open Idl (Source Edge NamespaceLine Inserts)
open Text (IsBlanks IsGap)

/-! ## References behind a character -/

/-- The names behind the qualifiers that start a path in `t`, where `before` stands in front. -/
def referencesFrom (qualifier : Text) (before : Option Char) (t : Text) : List Text :=
  ((Text.sites (qualifier ++ ['.']) before t).filterMap fun s =>
    if Quoted.kept.removes ⟨[], s.1, s.2⟩ then some (Text.takeWord s.2) else none).filter (· ≠ [])

/-- The word behind a qualifier, if it starts a path behind `before`. -/
def referenceAt (before : Option Char) (after : Text) : List Text :=
  if Quoted.kept.removes ⟨[], before, after⟩ ∧ Text.takeWord after ≠ [] then [Text.takeWord after] else []

section
variable {qualifier t name : Text} {before : Option Char} {c : Char}

theorem qualifiedReferences_eq_referencesFrom (qualifier line : Text) :
    qualifiedReferences qualifier line = referencesFrom qualifier none line :=
  Idl.qualifiedReferences_eq qualifier line

theorem referencesFrom_of_none (h : Text.splitFirst? (qualifier ++ ['.']) t = none) :
    referencesFrom qualifier before t = [] := by
  rw [referencesFrom, Text.sites_of_none h]
  rfl

theorem referencesFrom_of_some {gap after : Text} (h : Text.splitFirst? (qualifier ++ ['.']) t = some (gap, after)) :
    referencesFrom qualifier before t =
      referenceAt (gap.getLast?.or before) after ++ referencesFrom qualifier (some '.') after := by
  have hn : qualifier ++ ['.'] ≠ [] := by simp
  rw [referencesFrom, Text.sites_of_some hn h, List.getLast?_concat, List.filterMap_cons, referenceAt]
  cases Quoted.kept.removes ⟨[], gap.getLast?.or before, after⟩ with
  | false => rfl
  | true =>
    by_cases hword : Text.takeWord after = []
    · simp [hword, referencesFrom]
    · simp [hword, referencesFrom]

theorem referencesFrom_of_notMem (h : '.' ∉ t) : referencesFrom qualifier before t = [] :=
  referencesFrom_of_none (Text.splitFirst?_of_not_mem (List.mem_append_right _ List.mem_cons_self) h)

/-! ## Blanks -/

theorem isQuote_of_isBlank (h : Text.isBlank c = true) : Text.isQuote c = false := by
  rw [← Bool.not_eq_true]
  intro hquote
  simp only [Text.isQuote, Bool.or_eq_true, beq_iff_eq] at hquote
  rcases hquote with (rfl | rfl) | rfl <;> revert h <;> decide

theorem referencesFrom_blank (h : Text.isBlank c = true) (t : Text) :
    referencesFrom qualifier (some c) t = referencesFrom qualifier none t := by
  cases hs : Text.splitFirst? (qualifier ++ ['.']) t with
  | none => rw [referencesFrom_of_none hs, referencesFrom_of_none hs]
  | some s =>
    rw [referencesFrom_of_some hs, referencesFrom_of_some hs]
    congr 1
    cases s.1.getLast? with
    | none =>
      rw [Option.none_or, Option.none_or, referenceAt, referenceAt, Quoted.removes, Quoted.removes, startsPath_some,
        isPathChar_of_isBlank h, Option.any_some, isQuote_of_isBlank h]
      rfl
    | some d => rfl

theorem referencesFrom_append_blank (hq : ∀ d ∈ qualifier, isPathChar d = true) (h : Text.isBlank c = true)
    (before : Option Char) (t r : Text) :
    referencesFrom qualifier before (t ++ c :: r) =
      referencesFrom qualifier before t ++ referencesFrom qualifier none r := by
  have hn : qualifier ++ ['.'] ≠ [] := by simp
  have hpath := isPathChar_of_isBlank h
  have hc : c ∉ qualifier ++ ['.'] := by
    intro hm
    rw [isPathChar_of_mem_needle hq c hm] at hpath
    cases hpath
  have hword : Text.isWordChar c = false := Text.not_isWordChar_of_isBlank h
  rw [← referencesFrom_blank h r, referencesFrom, Text.sites_append_cons hn hc, List.filterMap_append,
    List.filter_append, List.filterMap_map]
  congr 3
  funext s
  have htake : Text.takeWord (s.2 ++ c :: r) = Text.takeWord s.2 := Text.takeWhile_append_cons hword s.2 r
  simp only [Function.comp_apply, htake]
  rfl

theorem referencesFrom_blanks_append (hq : ∀ d ∈ qualifier, isPathChar d = true) {b : Text} (hb : IsBlanks b)
    (t : Text) : referencesFrom qualifier none (b ++ t) = referencesFrom qualifier none t := by
  induction b with
  | nil => rfl
  | cons d b ih =>
    have hcut := referencesFrom_append_blank hq (hb d List.mem_cons_self) none [] (b ++ t)
    rw [referencesFrom_of_notMem List.not_mem_nil, List.nil_append, List.nil_append] at hcut
    rw [List.cons_append, hcut, ih fun x hx => hb x (List.mem_cons_of_mem d hx)]

theorem referencesFrom_append_gap (hq : ∀ d ∈ qualifier, isPathChar d = true) {b : Text} (hb : IsGap b) (t r : Text) :
    referencesFrom qualifier none (t ++ (b ++ r)) =
      referencesFrom qualifier none t ++ referencesFrom qualifier none r := by
  obtain ⟨d, b, rfl⟩ := List.exists_cons_of_ne_nil hb.1
  obtain ⟨hd, hblanks⟩ := List.forall_mem_cons.1 hb.2
  rw [List.cons_append, referencesFrom_append_blank hq hd, referencesFrom_blanks_append hq hblanks]

theorem referencesFrom_append_blanks (hq : ∀ d ∈ qualifier, isPathChar d = true) {b : Text} (hb : IsBlanks b)
    (t : Text) : referencesFrom qualifier none (t ++ b) = referencesFrom qualifier none t := by
  by_cases hne : b = []
  · rw [hne, List.append_nil]
  · have hgap := referencesFrom_append_gap hq ⟨hne, hb⟩ t []
    rwa [referencesFrom_of_notMem List.not_mem_nil, List.append_nil, List.append_nil] at hgap

/-! ## Paths -/

theorem referenceAt_of_not_startsPath (h : startsPath before = false) (after : Text) :
    referenceAt before after = [] := by
  rw [referenceAt, Quoted.removes, h, Bool.false_and]
  exact if_neg fun h => Bool.false_ne_true h.1

theorem referencesFrom_path {before : Option Char} {t : Text} (ht : ∀ d ∈ t, isPathChar d = true)
    (hb : startsPath before = false) :
    referencesFrom qualifier before t = [] := by
  cases hs : Text.splitFirst? (qualifier ++ ['.']) t with
  | none => exact referencesFrom_of_none hs
  | some s =>
    obtain ⟨gap, after⟩ := s
    have hsplit := Text.splitFirst?_eq_some hs
    have hlen : after.length < t.length := by
      rw [hsplit, List.length_append, List.length_append, List.length_append, List.length_singleton]
      omega
    have hgap : startsPath (gap.getLast?.or before) = false :=
      startsPath_getLast?_or (fun d hd => ht d (by simp [hsplit, hd])) hb
    rw [referencesFrom_of_some hs, referenceAt_of_not_startsPath hgap,
      referencesFrom_path (fun d hd => ht d (by simp [hsplit, hd])) rfl, List.nil_append]
termination_by t.length

theorem referencesFrom_of_starts {rest : Text} (hrest : ∀ d ∈ rest, isPathChar d = true) :
    referencesFrom qualifier none (qualifier ++ '.' :: rest) = referenceAt none rest := by
  have hneedle : qualifier ++ '.' :: rest = (qualifier ++ ['.']) ++ rest := by rw [List.append_assoc]; rfl
  rw [hneedle, referencesFrom_of_some (Text.splitFirst?_append (by simp) rest), referencesFrom_path hrest rfl,
    List.append_nil]
  rfl

theorem referencesFrom_of_not_starts (ht : ∀ d ∈ t, isPathChar d = true) (hnot : ∀ rest, t ≠ qualifier ++ '.' :: rest) :
    referencesFrom qualifier none t = [] := by
  cases hs : Text.splitFirst? (qualifier ++ ['.']) t with
  | none => exact referencesFrom_of_none hs
  | some s =>
    obtain ⟨gap, after⟩ := s
    have hsplit := Text.splitFirst?_eq_some hs
    obtain ⟨init, last, rfl⟩ := (List.eq_nil_or_concat gap).resolve_left fun hnil =>
      hnot after (by rw [hsplit, hnil, List.nil_append, List.append_assoc]; rfl)
    have hlast : startsPath (some last) = false := by
      rw [startsPath_some, ht last (by simp [hsplit])]
      rfl
    rw [referencesFrom_of_some hs, List.concat_eq_append, List.getLast?_concat, Option.some_or,
      referenceAt_of_not_startsPath hlast, referencesFrom_path (fun d hd => ht d (by simp [hsplit, hd])) rfl,
      List.nil_append]

/-- A path refers to the word behind a qualifier that it starts with. -/
theorem mem_referencesFrom_path (ht : ∀ d ∈ t, isPathChar d = true) :
    name ∈ referencesFrom qualifier none t ↔
      name ≠ [] ∧ ∃ rest, t = qualifier ++ '.' :: rest ∧ Text.takeWord rest = name := by
  by_cases hstarts : ∃ rest, t = qualifier ++ '.' :: rest
  · obtain ⟨rest, rfl⟩ := hstarts
    have hsame : ∀ {rest'}, qualifier ++ '.' :: rest = qualifier ++ '.' :: rest' ↔ rest' = rest := by
      simp [eq_comm]
    have hat : name ∈ referenceAt none rest ↔ name ≠ [] ∧ Text.takeWord rest = name := by
      rw [referenceAt]
      split
      · next hword =>
        rw [List.mem_singleton]
        exact ⟨fun h => ⟨h ▸ hword.2, h.symm⟩, fun h => h.2.symm⟩
      · next hword =>
        refine iff_of_false List.not_mem_nil ?_
        rintro ⟨hne, rfl⟩
        exact hword ⟨rfl, hne⟩
    rw [referencesFrom_of_starts fun d hd => ht d (by simp [hd]), hat]
    simp only [hsame, exists_eq_left]
  · rw [referencesFrom_of_not_starts ht fun rest hrest => hstarts ⟨rest, hrest⟩]
    refine iff_of_false List.not_mem_nil ?_
    rintro ⟨-, rest, hrest, -⟩
    exact hstarts ⟨rest, hrest⟩

/-! ## Dotted names -/

theorem takeWord_append_dot {word : Text} (hw : ∀ d ∈ word, Text.isWordChar d = true) (rest : Text) :
    Text.takeWord (word ++ '.' :: rest) = word := by
  rw [Text.takeWord, Text.takeWhile_append_cons (by decide), List.takeWhile_eq_self_iff]
  exact hw

theorem takeWord_join {word : Text} (hw : ∀ d ∈ word, Text.isWordChar d = true) (words : List Text) :
    Text.takeWord (Text.join ['.'] (word :: words)) = word := by
  cases words with
  | nil =>
    rw [Text.join, List.intercalate_singleton, Text.takeWord, List.takeWhile_eq_self_iff]
    exact hw
  | cons other words => rw [join_cons_cons, takeWord_append_dot hw]

/-- A dotted name refers to its second word behind its first one, and to nothing else. -/
theorem mem_qualifiedReferences_dotted {ns : Namespace} (h : IsDotted ns)
    (hq : ∀ d ∈ qualifier, Text.isWordChar d = true) :
    name ∈ qualifiedReferences qualifier ns ↔ [qualifier, name] <+: ns.splitOn '.' := by
  have hpath : ∀ d ∈ ns, isPathChar d = true := fun d hd => isPathChar_of_isNamespaceChar (h.isNamespaceChar d hd)
  obtain ⟨words, hne, hwords, rfl⟩ := h
  have hdot : ∀ word ∈ words, '.' ∉ word := fun word hw hm => absurd ((hwords word hw).2 '.' hm) (by decide)
  have hsplit : (Text.join ['.'] words).splitOn '.' = words := List.splitOn_intercalate '.' hdot hne
  rw [hsplit, qualifiedReferences_eq_referencesFrom, mem_referencesFrom_path hpath]
  match words, hne with
  | [word], _ =>
    refine iff_of_false ?_ fun hprefix => absurd hprefix.length_le (by simp)
    rintro ⟨-, rest, hrest, -⟩
    rw [Text.join, List.intercalate_singleton] at hrest
    exact hdot word List.mem_cons_self (by simp [hrest])
  | word :: other :: words, _ =>
    have hword := (hwords word List.mem_cons_self).2
    obtain ⟨hne, hother⟩ := hwords other (by simp)
    rw [join_cons_cons, List.cons_prefix_cons, List.cons_prefix_cons, and_iff_left List.nil_prefix]
    constructor
    · rintro ⟨-, rest, hrest, rfl⟩
      have hfirst : qualifier = word := by
        rw [← takeWord_append_dot hq rest, ← hrest, takeWord_append_dot hword]
      subst hfirst
      have htail := (List.cons.inj (List.append_cancel_left hrest)).2
      exact ⟨rfl, by rw [← htail, takeWord_join hother]⟩
    · rintro ⟨rfl, rfl⟩
      exact ⟨hne, _, rfl, takeWord_join hother words⟩

/-- The scope or the name of the line starts with the segments `qualifier` and `name`. -/
def Mentions (l : NamespaceLine) (qualifier name : Text) : Prop :=
  [qualifier, name] <+: l.scope.splitOn '.' ∨ [qualifier, name] <+: l.name.splitOn '.'

/-- A namespace line refers to what its scope and its name refer to. -/
theorem mem_qualifiedReferences_text (l : NamespaceLine) (hq : ∀ d ∈ qualifier, Text.isWordChar d = true) :
    name ∈ qualifiedReferences qualifier l.text ↔ Mentions l qualifier name := by
  have hpath : ∀ d ∈ qualifier, isPathChar d = true := fun d hd =>
    isPathChar_of_isNamespaceChar (by rw [Idl.isNamespaceChar, hq d hd]; rfl)
  have hscope : name ∈ qualifiedReferences qualifier l.scope ↔ [qualifier, name] <+: l.scope.splitOn '.' := by
    rcases l.isScope with hstar | hdotted
    · have hone : ['*'].splitOn '.' = [['*']] := by decide
      rw [hstar, qualifiedReferences_eq_referencesFrom, referencesFrom_of_notMem (by decide), hone]
      exact iff_of_false List.not_mem_nil fun hprefix => absurd hprefix.length_le (by simp)
    · exact mem_qualifiedReferences_dotted hdotted hq
  rw [Mentions, ← hscope, ← mem_qualifiedReferences_dotted l.isDotted hq]
  simp only [qualifiedReferences_eq_referencesFrom]
  rw [NamespaceLine.text, referencesFrom_blanks_append hpath l.indented, referencesFrom_append_gap hpath l.apart,
    referencesFrom_of_notMem (by decide), List.nil_append, referencesFrom_append_gap hpath l.apart',
    referencesFrom_append_blanks hpath l.isRest, List.mem_append]

end

/-! ## Imports and the text -/

section
variable {names names' : NameSet}

theorem sublist_of_subset (h : ∀ name ∈ names, name ∈ names') : names.toList.Sublist names'.toList := by
  have : Std.Antisymm (fun a b : Text => a < b) :=
    ⟨fun a b hab hba => absurd (List.lt_trans hab hba) (List.lt_irrefl a)⟩
  exact List.sublist_of_subperm_of_pairwise (List.subperm_of_subset names.nodup_toList h) names.sorted names'.sorted

theorem length_unlines (ls : List Text) : (Text.unlines ls).length = ls.flatten.length + ls.length := by
  induction ls with
  | nil => rfl
  | cons l ls ih =>
    rw [Text.unlines, List.flatMap_cons, ← Text.unlines, List.length_append, ih]
    simp only [List.flatten_cons, List.length_append, List.length_cons, List.length_nil]
    omega

theorem eq_of_sublist_of_unlines {ls ls' : List Text} (h : ls.Sublist ls')
    (htext : Text.unlines ls = Text.unlines ls') : ls = ls' := by
  have hlen := congrArg List.length htext
  rw [length_unlines, length_unlines] at hlen
  have hflat := h.flatten.length_le
  exact h.eq_of_length_le (by omega)

/-- Lists that are each a sublist of another one are the same if they are the same one after the other. -/
theorem eq_of_flatMap_eq {α β : Type} {f g : α → List β} {xs : List α} (hsub : ∀ x ∈ xs, (f x).Sublist (g x))
    (h : xs.flatMap f = xs.flatMap g) : ∀ x ∈ xs, f x = g x := by
  induction xs with
  | nil => exact List.forall_mem_nil _
  | cons x xs ih =>
    rw [List.forall_mem_cons] at hsub
    have hrest : (xs.flatMap f).length ≤ (xs.flatMap g).length := (List.Sublist.flatMap_right xs hsub.2).length_le
    rw [List.flatMap_cons, List.flatMap_cons] at h
    have hlen := congrArg List.length h
    rw [List.length_append, List.length_append] at hlen
    have hfirst : f x = g x := hsub.1.eq_of_length_le (by omega)
    rw [hfirst] at h
    exact List.forall_mem_cons.2 ⟨hfirst, ih hsub.2 (List.append_cancel_left h)⟩

end

/-! ## Sources with namespace lines -/

section
variable {ctx : Context} {text text' : Text} {inserted : List NamespaceLine} {source source' : Source}

theorem mem_referencedNames_inserts (path : Text) (h : Inserts false text.lines text'.lines inserted)
    {qualifier name : Text} :
    name ∈ referencedNames (.ofText path text') qualifier ↔
      name ∈ referencedNames (.ofText path text) qualifier ∨
        ∃ l ∈ inserted, name ∈ qualifiedReferences qualifier l.text := by
  have hnil : qualifiedReferences qualifier [] = [] := by
    rw [qualifiedReferences_eq_referencesFrom, referencesFrom_of_notMem List.not_mem_nil]
  rw [referencedNames, referencedNames, NameSet.mem_ofList, NameSet.mem_ofList]
  exact Idl.mem_flatMap_bareLines h hnil

/-- The text depends on the source by the import lines alone. -/
theorem composeDeclarations_text_eq_iff (files : List Text) :
    (composeDeclarations { ctx with source := source' } files).text =
        (composeDeclarations { ctx with source := source } files).text ↔
      Text.unlines (crossImports { ctx with source := source' }) =
        Text.unlines (crossImports { ctx with source := source }) := by
  simp only [composeDeclarations, Text.unlines, List.flatMap_append, List.append_assoc]
  constructor
  · intro h
    exact List.append_cancel_right (List.append_cancel_left h)
  · intro h
    rw [h]
    rfl

theorem referencedNames_eq_of_text_eq {files : List Text}
    (hmore : ∀ e ∈ ctx.includes.edges, ∀ name ∈ referencedNames source e.name, name ∈ referencedNames source' e.name)
    (h : (composeDeclarations { ctx with source := source' } files).text =
      (composeDeclarations { ctx with source := source } files).text) :
    ∀ e ∈ ctx.includes.edges, (referencedNames source e.name).toList = (referencedNames source' e.name).toList := by
  have hsub : ∀ e ∈ ctx.includes.edges,
      (importsOf { ctx with source := source } e).Sublist (importsOf { ctx with source := source' } e) :=
    fun e he => (sublist_of_subset (hmore e he)).map _
  have hlines : crossImports { ctx with source := source } = crossImports { ctx with source := source' } :=
    eq_of_sublist_of_unlines (List.Sublist.flatMap_right _ hsub) ((composeDeclarations_text_eq_iff files).1 h).symm
  intro e he
  have himports := congrArg List.length (eq_of_flatMap_eq hsub hlines e he)
  rw [importsOf, importsOf, List.length_map, List.length_map] at himports
  exact (sublist_of_subset (hmore e he)).eq_of_length himports

/-- Namespace lines leave the text of a declaration module as it is exactly if what they refer to behind an include, the
source refers to already; behind a word, such a line refers to what it mentions. -/
theorem namespace_lines_import_iff (ctx : Context) (path : Text) (files : List Text)
    (h : Inserts false text.lines text'.lines inserted) :
    ((composeDeclarations { ctx with source := .ofText path text' } files).text =
        (composeDeclarations { ctx with source := .ofText path text } files).text ↔
      ∀ e ∈ ctx.includes.edges, ∀ l ∈ inserted, ∀ name ∈ qualifiedReferences e.name l.text,
        name ∈ referencedNames (.ofText path text) e.name) ∧
    ∀ l ∈ inserted, ∀ qualifier, (∀ c ∈ qualifier, Text.isWordChar c = true) → ∀ name,
      name ∈ qualifiedReferences qualifier l.text ↔ Mentions l qualifier name := by
  have hnames : ∀ {qualifier name}, name ∈ referencedNames (.ofText path text') qualifier ↔
      name ∈ referencedNames (.ofText path text) qualifier ∨
        ∃ l ∈ inserted, name ∈ qualifiedReferences qualifier l.text := mem_referencedNames_inserts path h
  refine ⟨⟨fun htext e he l hl name hname => ?_, fun hknown => ?_⟩, fun l _ qualifier hword name =>
    mem_qualifiedReferences_text l hword⟩
  · have hsame := referencedNames_eq_of_text_eq (fun e _ name hname => hnames.2 (.inl hname)) htext e he
    rw [NameSet.mem_def, hsame]
    exact hnames.2 (.inr ⟨l, hl, hname⟩)
  · have hsame : ∀ e ∈ ctx.includes.edges,
        referencedNames (.ofText path text') e.name = referencedNames (.ofText path text) e.name := by
      intro e he
      refine NameSet.eq_of_mem_iff fun name => hnames.trans (or_iff_left_of_imp ?_)
      rintro ⟨l, hl, hname⟩
      exact hknown e he l hl name hname
    let ctx' : Context := { ctx with source := .ofText path text }
    exact congrArg Composed.text (@composeDeclarations_source ctx' _ hsame files)

end

def javaLine (name : Namespace) (h : IsDotted name) : NamespaceLine where
  indent := []
  gap := [' ']
  scope := "java".toList
  gap' := [' ']
  name := name
  rest := []
  indented := by decide
  apart := by decide
  apart' := by decide
  isRest := by decide
  isScope := .inr ((isDotted_iff (by decide) (by decide)).2 (by decide))
  isDotted := h

theorem isDotted_org_demo : IsDotted "org.demo".toList := (isDotted_iff (by decide) (by decide)).2 (by decide)

theorem isDotted_common_model : IsDotted "common.model".toList := (isDotted_iff (by decide) (by decide)).2 (by decide)

def includingCommon (text : Text) : Context :=
  ⟨"app".toList, .ofText [] text, "demo".toList, ⟨∅, ∅, ∅, ∅⟩,
    .ofEdges [⟨"common".toList, "common.thrift".toList, "pkg.common".toList⟩]⟩

theorem inserts_second {text text' : Text} (line : Text) {l : NamespaceLine} (hlines : text.lines = [line])
    (hlines' : text'.lines = [line, l.text]) (hclosed : (Idl.scanLine .code line).inComment = false) :
    Inserts false text.lines text'.lines [l] := by
  rw [hlines, hlines']
  refine .keep ?_
  rw [Idl.entryState, if_neg Bool.false_ne_true, hclosed]
  exact .insert .nil

/-- A name that starts with no include leaves every module as it is. -/
theorem namespace_lines_import_iff_org :
    Inserts false (Text.lines "include \"common.thrift\"".toList)
        (Text.lines "include \"common.thrift\"\nnamespace java org.demo".toList) [javaLine _ isDotted_org_demo] ∧
      ∀ files,
        (composeDeclarations (includingCommon "include \"common.thrift\"\nnamespace java org.demo".toList) files).text =
          (composeDeclarations (includingCommon "include \"common.thrift\"".toList) files).text := by
  have h : Inserts false (Text.lines "include \"common.thrift\"".toList)
      (Text.lines "include \"common.thrift\"\nnamespace java org.demo".toList) [javaLine _ isDotted_org_demo] :=
    inserts_second "include \"common.thrift\"".toList (by decide +kernel) (by decide +kernel) (by decide +kernel)
  refine ⟨h, fun files => ((namespace_lines_import_iff (includingCommon []) [] files h).1).2 ?_⟩
  decide +kernel

/-- A name that starts with the name of an include adds an import. -/
theorem namespace_line_imports :
    Inserts false (Text.lines "include \"common.thrift\"".toList)
        (Text.lines "include \"common.thrift\"\nnamespace java common.model".toList)
        [javaLine _ isDotted_common_model] ∧
      (composeDeclarations (includingCommon "include \"common.thrift\"".toList) []).text =
        "declare module 'app/demo' \x7b\nimport Thrift from 'thrift/Thrift';\n\x7d\n".toList ∧
      (composeDeclarations (includingCommon "include \"common.thrift\"\nnamespace java common.model".toList) []).text =
        ("declare module 'app/demo' \x7b\nimport Thrift from 'thrift/Thrift';\n" ++
          "import \x7b model \x7d from 'app/pkg.common';\n\x7d\n").toList :=
  ⟨inserts_second "include \"common.thrift\"".toList (by decide +kernel) (by decide +kernel)
    (by decide +kernel), by decide +kernel, by decide +kernel⟩

end ThriftModules.Module
