import ThriftModules.Proofs.Module.CrossImports
import ThriftModules.Proofs.Module.Exports
import ThriftModules.Proofs.Module.OnePass
import ThriftModules.Proofs.Text.Keywords
import ThriftModules.Proofs.Text.Lines

/-!
# What a declaration module reports

* `exportedBy?`, `Exports` : the declarations that a module exports, read off the lines of its text;
* `exportedBy?_unqualify` : a recognised header still exports its name when the qualifiers of its line are gone;
* `exists_exports_iff` : the text exports the names of the recognised headers and no other;
* `ReportsLeftOut` : what a module reports are the declared names that its text does not export, each once;
* `declarations_report_iff` : what a declaration module reports, and when these are the names that it leaves out.
-/

namespace ThriftModules.Module

set_option autoImplicit false

open Idl (Symbols Kind)

/-! ## Exports in a text -/

def exportedBy? (line : Text) : Option (Header × Text) :=
  ((Text.stripKeyword? "export".toList line).bind header?).map fun h => (h.1, Text.takeWord h.2)

/-- The text has a line that exports a declaration of `name`. -/
def Exports (text : Text) (header : Header) (name : Text) : Prop :=
  ∃ line ∈ Text.lines text, exportedBy? line = some (header, name)

instance (text : Text) (header : Header) (name : Text) : Decidable (Exports text header name) :=
  inferInstanceAs (Decidable (∃ line ∈ Text.lines text, exportedBy? line = some (header, name)))

theorem prefix_of_exportedBy? {line : Text} {e : Header × Text} (h : exportedBy? line = some e) :
    "export".toList <+: line := by
  obtain ⟨h', hbind, -⟩ := Option.map_eq_some_iff.1 h
  obtain ⟨body, hbody, -⟩ := Option.bind_eq_some_iff.1 hbind
  obtain ⟨rest, hrest, -⟩ := Option.bind_eq_some_iff.1 hbody
  exact ⟨rest, (Text.stripStart?_eq_some_iff.1 hrest).symm⟩

theorem exportedBy?_of_head {line : Text} (h : line.head? ≠ some 'e') : exportedBy? line = none := by
  rw [Option.eq_none_iff_forall_ne_some]
  intro e he
  obtain ⟨rest, rfl⟩ := prefix_of_exportedBy? he
  exact h rfl

/-! ## The front of an exported header -/

/-- A text that no removal reaches into from behind: no dot, no slash, and no character of a path at its end. -/
def IsFront (front : Text) : Prop := '.' ∉ front ∧ '/' ∉ front ∧ startsPath front.getLast? = true

section
variable {front : Text}

theorem stripQualifier_of_notMem {qualifier line : Text} {quoted : Quoted} (h : '.' ∉ line) :
    stripQualifier qualifier quoted line = line := by
  have hnone : Text.splitFirst? (qualifier ++ ['.']) line = none := Text.splitFirst?_of_not_mem (by simp) h
  rw [stripQualifier, dropOccurrences, Text.occurrences, Text.occurrencesFrom_of_none hnone]
  rfl

theorem IsFront.stripQualifier_eq (h : IsFront front) {qualifier : Text} {quoted : Quoted}
    (hq : ∀ c ∈ qualifier, isPathChar c = true) (rest : Text) :
    stripQualifier qualifier quoted (front ++ rest) =
      front ++ leftFrom quoted (qualifier ++ ['.']) front.getLast? rest := by
  have hfront : removeFrom (qualifierLength qualifier quoted) none 0 front = front :=
    (Module.stripQualifier_eq hq front).symm.trans (stripQualifier_of_notMem h.1)
  have hstarts : startsPath (front.getLast?.or none) = true := by
    rw [Option.or_none]
    exact h.2.2
  rw [Module.stripQualifier_eq hq, removeAt, removeFrom_append (isRemoval_qualifierLength hq) rfl hstarts, hfront,
    Option.or_none, leftFrom_eq_removeFrom hq]

theorem IsFront.stripQualifier (h : IsFront front) {qualifier : Text} (quoted : Quoted)
    (hq : ∀ c ∈ qualifier, isPathChar c = true) (rest : Text) :
    ∃ rest', stripQualifier qualifier quoted (front ++ rest) = front ++ rest' := ⟨_, h.stripQualifier_eq hq rest⟩

theorem IsFront.foldl_stripQualifier (h : IsFront front) {names : List Namespace}
    (hnames : ∀ ns ∈ names, ∀ c ∈ ns, isPathChar c = true) (rest : Text) :
    ∃ rest', names.foldl (fun line ns => Module.stripQualifier ns .kept line) (front ++ rest) = front ++ rest' := by
  induction names generalizing rest with
  | nil => exact ⟨rest, rfl⟩
  | cons ns names ih =>
    obtain ⟨rest', hrest⟩ := h.stripQualifier .kept (hnames ns List.mem_cons_self) rest
    rw [List.foldl_cons, hrest]
    exact ih (fun m hm => hnames m (List.mem_cons_of_mem ns hm)) rest'

/-- A needle starts behind a text that does not hold its first character. -/
theorem exists_gap_of_splitFirst? {needle t gap after : Text} {c : Char} (hc : c ∉ front)
    (h : Text.splitFirst? (c :: needle) (front ++ t) = some (gap, after)) : ∃ gap', gap = front ++ gap' := by
  induction front generalizing gap with
  | nil => exact ⟨gap, rfl⟩
  | cons d front ih =>
    have hd : c ≠ d := fun e => hc (e ▸ List.mem_cons_self)
    have hfront : c ∉ front := fun hmem => hc (List.mem_cons_of_mem d hmem)
    rw [List.cons_append, Text.splitFirst?, Text.stripStart?, if_neg hd] at h
    obtain ⟨⟨gap', after'⟩, hs, he⟩ := Option.map_eq_some_iff.1 h
    cases he
    obtain ⟨gap'', rfl⟩ := ih hfront hs
    exact ⟨gap'', rfl⟩

theorem IsFront.stripBlockComments (h : IsFront front) (rest : Text) :
    ∃ rest', stripBlockComments (front ++ rest) = front ++ rest' := by
  rw [Module.stripBlockComments]
  split
  · exact ⟨rest, rfl⟩
  · next gap opened hgap =>
    split
    · exact ⟨rest, rfl⟩
    · obtain ⟨gap', rfl⟩ := exists_gap_of_splitFirst? h.2.1 hgap
      exact ⟨_, List.append_assoc ..⟩

theorem IsFront.unqualify (h : IsFront front) {ctx : Context} (hnames : HasDottedNames ctx) (tail : Text) :
    ∃ rest, unqualify ctx (front ++ tail) = Text.trim (front ++ rest) := by
  obtain ⟨tail', hown⟩ := h.stripQualifier .removed (hnames.isPathChar ctx.ns (by simp)) tail
  obtain ⟨tail'', hcomments⟩ := h.stripBlockComments tail'
  obtain ⟨rest, hincluded⟩ := h.foldl_stripQualifier
    (fun ns hns => hnames.isPathChar ns (List.mem_cons_of_mem _ hns)) tail''
  exact ⟨rest, by rw [Module.unqualify, hown, hcomments, hincluded]⟩

end

def exportOpening (header : Header) : Text := "export ".toList ++ (header.keyword ++ [' '])

def exportFront (header : Header) (name : Text) : Text := exportOpening header ++ (name ++ [' '])

section
variable {header : Header} {name : Text}

theorem isFront_exportFront (hname : ∀ c ∈ name, Text.isWordChar c = true) : IsFront (exportFront header name) := by
  have hnot : ∀ c, Text.isWordChar c = false → c ≠ ' ' → (∀ header, c ∉ exportOpening header) →
      c ∉ exportFront header name := by
    intro c hc hblank hopening hmem
    rcases List.mem_append.1 hmem with hmem | hmem
    · exact hopening header hmem
    · rcases List.mem_append.1 hmem with hmem | hmem
      · rw [hname c hmem] at hc
        cases hc
      · exact hblank (List.mem_singleton.1 hmem)
  refine ⟨hnot '.' (by decide) (by decide) ?_, hnot '/' (by decide) (by decide) ?_, ?_⟩
  · rintro ⟨⟩ <;> decide
  · rintro ⟨⟩ <;> decide
  · rw [exportFront, ← List.append_assoc, List.getLast?_concat]
    rfl

theorem exportedBy?_opening (header : Header) (t : Text) :
    exportedBy? (exportOpening header ++ t) = some (header, Text.takeWord (Text.trimStart t)) := by
  cases header <;> rfl

theorem trimEnd_blank_cons (t : Text) :
    Text.trimEnd (' ' :: t) = [] ∨ ∃ t', Text.trimEnd (' ' :: t) = ' ' :: t' := by
  obtain ⟨blanks, hsplit, -⟩ := Text.exists_trimEnd (' ' :: t)
  cases htrim : Text.trimEnd (' ' :: t) with
  | nil => exact .inl rfl
  | cons c t' =>
    rw [htrim, List.cons_append] at hsplit
    rw [(List.cons.inj hsplit).1]
    exact .inr ⟨t', rfl⟩

/-- A trimmed line that starts with the front of an export exports its name. -/
theorem exportedBy?_exportFront (hne : name ≠ []) (hname : ∀ c ∈ name, Text.isWordChar c = true) (rest : Text) :
    exportedBy? (Text.trim (exportFront header name ++ rest)) = some (header, name) := by
  obtain ⟨init, last, hlast⟩ := (List.eq_nil_or_concat name).resolve_left hne
  rw [List.concat_eq_append] at hlast
  have hblank : Text.isBlank last = false := Text.isBlank_of_isWordChar (hname last (by simp [hlast]))
  have hfront : exportFront header name ++ rest = (exportOpening header ++ init) ++ last :: (' ' :: rest) := by
    simp [exportFront, hlast]
  have hstart : Text.trimStart (exportFront header name ++ rest) = exportFront header name ++ rest := by
    cases header <;> rfl
  have htrim : Text.trim (exportFront header name ++ rest) =
      exportOpening header ++ (name ++ Text.trimEnd (' ' :: rest)) := by
    rw [Text.trim, hstart, hfront, Text.trimEnd_append_cons hblank, hlast]
    simp
  have hname' : ∀ t, Text.trimStart (name ++ t) = name ++ t := by
    intro t
    refine Text.trimStart_eq_self fun c hc => ?_
    cases hn : name with
    | nil => exact absurd hn hne
    | cons d r =>
      rw [hn] at hc
      cases hc
      exact Text.isBlank_of_isWordChar (hname c (by simp [hn]))
  have hword : Text.takeWord (name ++ Text.trimEnd (' ' :: rest)) = name := by
    rw [Text.takeWord, List.takeWhile_append_of_pos hname]
    rcases trimEnd_blank_cons rest with h | ⟨t, h⟩
    · rw [h]
      exact List.append_nil name
    · rw [h, List.takeWhile_cons_of_neg (by decide), List.append_nil]
  rw [htrim, exportedBy?_opening, hname', hword]

/-! ## Recognised headers -/

theorem suffix_of_stripKeyword? {keyword t rest : Text} (h : Text.stripKeyword? keyword t = some rest) :
    rest <:+ t := by
  obtain ⟨gap, -, rfl, -⟩ := Text.stripKeyword?_eq_some_iff.1 h
  exact (List.suffix_append gap rest).trans (List.suffix_append keyword _)

theorem suffix_of_header? {body after : Text} (h : header? body = some (header, after)) : after <:+ body := by
  rw [header?] at h
  split at h
  · next after' henum =>
    cases h
    exact suffix_of_stripKeyword? henum
  · obtain ⟨after', hclass, he⟩ := Option.map_eq_some_iff.1 h
    cases he
    exact suffix_of_stripKeyword? hclass

theorem flatten_export (opening keyword name tail : Text) :
    [opening, keyword, [' '], name, [' '], tail].flatten = opening ++ (keyword ++ [' ']) ++ (name ++ [' ']) ++ tail := by
  simp

/-- A recognised header: a declared name, and the line as its export. -/
theorem exists_of_exportHeader? {symbols : Symbols} {raw line : Text} (h : exportHeader? symbols raw = some (name, line)) :
    ∃ header tail, name ≠ [] ∧ (∀ c ∈ name, Text.isWordChar c = true) ∧ header.declares symbols name = true ∧
      line = exportFront header name ++ tail ∧ ∀ c ∈ tail, c ∈ raw := by
  unfold exportHeader? at h
  simp only [Option.bind_eq_bind] at h
  split at h
  · cases h
  · obtain ⟨⟨header, after⟩, hheader, hline⟩ := Option.bind_eq_some_iff.1 h
    split at hline
    · next hdeclared =>
      obtain ⟨rfl, rfl⟩ := Prod.mk.inj (Option.some.inj hline)
      obtain ⟨hne, hdeclares, -⟩ := hdeclared
      refine ⟨header, Text.trimStart (after.dropWhile Text.isWordChar), hne, fun c hc => List.mem_takeWhile_imp hc,
        hdeclares, ?_, ?_⟩
      · exact flatten_export "export ".toList header.keyword _ _
      · have hsuffix : Text.trimStart (after.dropWhile Text.isWordChar) <:+ raw :=
          ((List.dropWhile_suffix _).trans (List.dropWhile_suffix _)).trans
            ((suffix_of_header? hheader).trans (List.dropWhile_suffix _))
        exact fun c hc => hsuffix.mem hc
    · cases hline

/-- A recognised header still exports its name when the qualifiers of its line are gone. -/
theorem exportedBy?_unqualify {ctx : Context} (hnames : HasDottedNames ctx) {raw line : Text}
    (h : exportHeader? ctx.symbols raw = some (name, line)) :
    ∃ header, header.declares ctx.symbols name = true ∧ exportedBy? (unqualify ctx line) = some (header, name) := by
  obtain ⟨header, tail, hne, hword, hdeclares, rfl, -⟩ := exists_of_exportHeader? h
  obtain ⟨rest, hrest⟩ := (isFront_exportFront hword).unqualify hnames tail
  refine ⟨header, hdeclares, ?_⟩
  rw [hrest]
  exact exportedBy?_exportFront hne hword rest

end

/-! ## The lines of a module -/

section
variable {len : Option Char → Text → Nat}

theorem removeFrom_subset (before : Option Char) (skip : Nat) (t : Text) : removeFrom len before skip t ⊆ t := by
  fun_induction removeFrom len before skip t with
  | case1 => exact List.Subset.refl _
  | case2 before skip c r ih => exact List.subset_cons_of_subset c ih
  | case3 before c r hzero ih => exact List.cons_subset_cons c ih
  | case4 before c r n hn ih => exact List.subset_cons_of_subset c ih

end

theorem stripBlockComments_subset (line : Text) : stripBlockComments line ⊆ line := by
  fun_induction stripBlockComments line with
  | case1 => exact List.Subset.refl _
  | case2 => exact List.Subset.refl _
  | case3 line gap opened hgap skipped rest hrest ih =>
    have hline : line = gap ++ ("/*".toList ++ (skipped ++ "*/".toList)) ++ rest := by
      rw [Text.splitFirst?_eq_some hgap, Text.splitFirst?_eq_some hrest]
      simp only [List.append_assoc]
    rw [hline]
    refine List.append_subset.2 ⟨?_, fun c hc => List.mem_append_right _ (ih hc)⟩
    exact fun c hc => List.mem_append_left _ (List.mem_append_left _ hc)

theorem trim_subset (t : Text) : Text.trim t ⊆ t := by
  obtain ⟨a, b, hsplit, -, -⟩ := Text.exists_trim t
  intro c hc
  rw [hsplit]
  exact List.mem_append_right a (List.mem_append_left b hc)

section
variable {ctx : Context} {files : List Text}

theorem unqualify_subset (hnames : HasDottedNames ctx) (line : Text) : unqualify ctx line ⊆ line := by
  have hstrip : ∀ ns ∈ ctx.ns :: ctx.includes.namespaces.toList, ∀ quoted line,
      stripQualifier ns quoted line ⊆ line := by
    intro ns hns quoted line
    rw [stripQualifier_eq (hnames.isPathChar ns hns)]
    exact removeFrom_subset none 0 line
  have hincluded : ∀ names : List Namespace, (∀ ns ∈ names, ns ∈ ctx.includes.namespaces.toList) → ∀ line,
      names.foldl (fun line ns => stripQualifier ns .kept line) line ⊆ line := by
    intro names hsub
    induction names with
    | nil => exact List.Subset.refl
    | cons ns names ih =>
      intro line
      have hns := hstrip ns (List.mem_cons_of_mem _ (hsub ns List.mem_cons_self)) .kept line
      exact List.Subset.trans (ih (fun m hm => hsub m (List.mem_cons_of_mem ns hm)) _) hns
  refine List.Subset.trans (trim_subset _) (List.Subset.trans (hincluded _ (fun _ h => h) _) ?_)
  exact List.Subset.trans (stripBlockComments_subset _) (hstrip ctx.ns List.mem_cons_self .removed line)

theorem closesAsLine_unqualify (hnames : HasDottedNames ctx) {line : Text} (h : '\n' ∉ line) :
    Text.ClosesAsLine (unqualify ctx line) := by
  refine ⟨fun hc => h (unqualify_subset hnames line hc), fun hlast => ?_⟩
  have hblank := Text.isBlank_of_trim_eq_self (Text.trim_trim _) (.inr hlast)
  exact absurd hblank (by decide)

theorem newline_notMem_rewritten {raw : Text} (h : '\n' ∉ raw) : '\n' ∉ rewritten ctx raw := by
  rw [rewritten]
  split
  · next name line hheader =>
    obtain ⟨header, tail, -, hname, -, rfl, htail⟩ := exists_of_exportHeader? hheader
    intro hc
    rcases List.mem_append.1 hc with hc | hc
    · rcases List.mem_append.1 hc with hc | hc
      · revert hc
        cases header <;> decide
      · rcases List.mem_append.1 hc with hc | hc
        · exact absurd (hname '\n' hc) (by decide)
        · exact absurd hc (by decide)
    · exact h (htail '\n' hc)
  · exact h

def moduleLines (ctx : Context) (files : List Text) : List Text :=
  [moduleLine ctx, runtimeImport] ++ crossImports ctx ++ (files.map (adaptFile ctx)).flatMap bodyLines ++ [['}']]

theorem mem_dropModuleEnd {lines : List Text} {line : Text} (h : line ≠ ['}']) :
    line ∈ dropModuleEnd lines ↔ line ∈ lines := by
  rw [dropModuleEnd]
  split
  · next hlast =>
    obtain ⟨init, rfl⟩ := List.getLast?_eq_some_iff.1 hlast
    rw [List.dropLast_concat, List.mem_append, List.mem_singleton, or_iff_left h]
  · exact Iff.rfl

theorem dropModuleEnd_subset (lines : List Text) : dropModuleEnd lines ⊆ lines := by
  rw [dropModuleEnd]
  split
  · exact List.dropLast_subset lines
  · exact List.Subset.refl lines

theorem exists_of_mem_adaptFile {file : Text} {adapted : AdaptedLine} (h : adapted ∈ adaptFile ctx file) :
    ∃ raw ∈ Text.lines file, isLeftOut raw = false ∧ adapted.text = unqualify ctx (rewritten ctx raw) ∧
      adapted.exported = (exportHeader? ctx.symbols raw).map Prod.fst := by
  obtain ⟨raw, hraw, hadapt⟩ := List.mem_filterMap.1 h
  refine ⟨raw, hraw, ?_, text_of_adaptLine? hadapt, ?_⟩
  · rw [adaptLine?] at hadapt
    split at hadapt
    · cases hadapt
    · exact Bool.eq_false_iff.2 ‹_›
  · rw [adaptLine?] at hadapt
    split at hadapt
    · cases hadapt
    · split at hadapt <;> next hheader => cases hadapt; rw [hheader]; rfl

theorem closesAsLine_flatten (parts : List Text) (last : Text) {c : Char} (h : ∀ p ∈ parts ++ [last ++ [c]], '\n' ∉ p)
    (hc : c ≠ '\r') : Text.ClosesAsLine (parts ++ [last ++ [c]]).flatten := by
  refine ⟨fun hmem => ?_, ?_⟩
  · obtain ⟨p, hp, hmem⟩ := List.mem_flatten.1 hmem
    exact h p hp hmem
  · rw [List.flatten_append, List.flatten_singleton, ← List.append_assoc, List.getLast?_concat]
    exact fun e => hc (Option.some.inj e)

theorem newline_notMem_modulePath (hproject : '\n' ∉ ctx.project) {ns : Namespace}
    (hns : ∀ c ∈ ns, Idl.isNamespaceChar c = true) : '\n' ∉ ctx.modulePath ns := by
  intro hc
  rcases List.mem_append.1 hc with hc | hc
  · exact hproject hc
  · rcases List.mem_cons.1 hc with hc | hc
    · cases hc
    · exact absurd (hns _ hc) (by decide)

theorem closesAsLine_crossImport (hproject : '\n' ∉ ctx.project) (hnames : HasDottedNames ctx) {line : Text}
    (h : line ∈ crossImports ctx) : Text.ClosesAsLine line := by
  obtain ⟨edge, hedge, hline⟩ := List.mem_flatMap.1 h
  obtain ⟨name, hname, rfl⟩ := List.mem_map.1 hline
  have htarget : '\n' ∉ ctx.modulePath edge.target := by
    refine newline_notMem_modulePath hproject (hnames edge.target (List.mem_cons_of_mem _ ?_))
    exact NameSet.mem_ofList.2 (List.mem_map_of_mem hedge)
  have hword : '\n' ∉ name := fun hc => absurd (isWordChar_of_mem_referencedNames hname '\n' hc) (by decide)
  refine closesAsLine_flatten ["import \x7b ".toList, name, " \x7d from '".toList, _] ['\''] (c := ';') ?_ (by decide)
  intro p hp
  simp only [List.cons_append, List.nil_append, List.mem_cons, List.not_mem_nil, or_false] at hp
  rcases hp with rfl | rfl | rfl | rfl | rfl
  · decide
  · exact hword
  · decide
  · exact htarget
  · decide

theorem closesAsLine_of_mem_moduleLines (hproject : '\n' ∉ ctx.project) (hnames : HasDottedNames ctx) {line : Text}
    (h : line ∈ moduleLines ctx files) : Text.ClosesAsLine line := by
  simp only [moduleLines, List.mem_append, List.mem_cons, List.not_mem_nil, or_false] at h
  rcases h with (((rfl | rfl) | h) | h) | rfl
  · have hpath := newline_notMem_modulePath hproject (hnames ctx.ns List.mem_cons_self)
    refine closesAsLine_flatten ["declare module '".toList, ctx.modulePath ctx.ns] "' ".toList (c := '\x7b') ?_
      (by decide)
    intro p hp
    simp only [List.cons_append, List.nil_append, List.mem_cons, List.not_mem_nil, or_false] at hp
    rcases hp with rfl | rfl | rfl
    · decide
    · exact hpath
    · decide
  · exact ⟨by decide, by decide⟩
  · exact closesAsLine_crossImport hproject hnames h
  · obtain ⟨adapted, hadapted, hline⟩ := List.mem_flatMap.1 h
    obtain ⟨file, -, rfl⟩ := List.mem_map.1 hadapted
    obtain ⟨line', hline', rfl⟩ := List.mem_map.1 (List.mem_filter.1 (dropModuleEnd_subset _ hline)).1
    obtain ⟨raw, hraw, -, htext, -⟩ := exists_of_mem_adaptFile hline'
    rw [htext]
    exact closesAsLine_unqualify hnames (newline_notMem_rewritten (Text.newline_notMem_of_mem_lines hraw))
  · exact ⟨by decide, by decide⟩

theorem lines_composeDeclarations (hproject : '\n' ∉ ctx.project) (hnames : HasDottedNames ctx) :
    Text.lines (composeDeclarations ctx files).text = moduleLines ctx files :=
  Text.lines_unlines fun _ h => closesAsLine_of_mem_moduleLines hproject hnames h

/-! ## What is exported -/

def recognised (ctx : Context) (files : List Text) : List Text :=
  (files.map (adaptFile ctx)).flatten.filterMap AdaptedLine.exported

/-- No kept line reads as an export, unless it is a recognised header. -/
def ExportsHeadersOnly (ctx : Context) (files : List Text) : Prop :=
  ∀ file ∈ files, ∀ raw ∈ Text.lines file, isLeftOut raw = false → exportHeader? ctx.symbols raw = none →
    exportedBy? (unqualify ctx raw) = none

theorem mem_recognised {name : Text} :
    name ∈ recognised ctx files ↔
      ∃ file ∈ files, ∃ adapted ∈ adaptFile ctx file, adapted.exported = some name := by
  simp only [recognised, List.mem_filterMap, List.mem_flatten, List.mem_map]
  constructor
  · rintro ⟨adapted, ⟨_, ⟨file, hfile, rfl⟩, hadapted⟩, hname⟩
    exact ⟨file, hfile, adapted, hadapted, hname⟩
  · rintro ⟨file, hfile, adapted, hadapted, hname⟩
    exact ⟨adapted, ⟨_, ⟨file, hfile, rfl⟩, hadapted⟩, hname⟩

theorem mem_moduleLines_of_mem_adaptFile {file : Text} {adapted : AdaptedLine} (hfile : file ∈ files)
    (h : adapted ∈ adaptFile ctx file) (hne : adapted.text ≠ []) (hend : adapted.text ≠ ['}']) :
    adapted.text ∈ moduleLines ctx files := by
  have hbody : adapted.text ∈ bodyLines (adaptFile ctx file) := by
    rw [bodyLines, mem_dropModuleEnd hend]
    exact List.mem_filter.2 ⟨List.mem_map_of_mem h, by simpa using hne⟩
  simp only [moduleLines, List.mem_append]
  exact .inl (.inr (List.mem_flatMap.2 ⟨_, List.mem_map_of_mem hfile, hbody⟩))

theorem exists_adapted_of_exportedBy? {line : Text} {e : Header × Text} (h : line ∈ moduleLines ctx files)
    (he : exportedBy? line = some e) :
    ∃ file ∈ files, ∃ adapted ∈ adaptFile ctx file, adapted.text = line := by
  have hhead : line.head? = some 'e' := by
    by_contra hne
    rw [exportedBy?_of_head hne] at he
    cases he
  simp only [moduleLines, List.mem_append, List.mem_cons, List.not_mem_nil, or_false] at h
  rcases h with (((rfl | rfl) | h) | h) | rfl
  · cases hhead
  · cases hhead
  · obtain ⟨edge, -, hline⟩ := List.mem_flatMap.1 h
    obtain ⟨name, -, rfl⟩ := List.mem_map.1 hline
    cases hhead
  · obtain ⟨_, hadapted, hline⟩ := List.mem_flatMap.1 h
    obtain ⟨file, hfile, rfl⟩ := List.mem_map.1 hadapted
    obtain ⟨adapted, hadapted, rfl⟩ := List.mem_map.1 (List.mem_filter.1 (dropModuleEnd_subset _ hline)).1
    exact ⟨file, hfile, adapted, hadapted, rfl⟩
  · cases hhead

/-- The text of a module exports the names of the recognised headers and no other. -/
theorem exists_exports_iff (hproject : '\n' ∉ ctx.project) (hnames : HasDottedNames ctx)
    (hlines : ExportsHeadersOnly ctx files) {name : Text} :
    (∃ header, Exports (composeDeclarations ctx files).text header name) ↔ name ∈ recognised ctx files := by
  simp only [Exports, lines_composeDeclarations hproject hnames, mem_recognised]
  constructor
  · rintro ⟨header, line, hline, hexport⟩
    obtain ⟨file, hfile, adapted, hadapted, rfl⟩ := exists_adapted_of_exportedBy? hline hexport
    obtain ⟨raw, hraw, hkept, htext, hexported⟩ := exists_of_mem_adaptFile hadapted
    refine ⟨file, hfile, adapted, hadapted, ?_⟩
    cases hheader : exportHeader? ctx.symbols raw with
    | none =>
      rw [htext, rewritten, hheader, hlines file hfile raw hraw hkept hheader] at hexport
      cases hexport
    | some h =>
      obtain ⟨n, l⟩ := h
      obtain ⟨header', -, hl⟩ := exportedBy?_unqualify hnames hheader
      rw [htext, rewritten, hheader, hl] at hexport
      cases hexport
      rw [hexported, hheader]
      rfl
  · rintro ⟨file, hfile, adapted, hadapted, hname⟩
    obtain ⟨raw, -, -, htext, hexported⟩ := exists_of_mem_adaptFile hadapted
    rw [hexported] at hname
    obtain ⟨⟨n, l⟩, hheader, rfl⟩ := Option.map_eq_some_iff.1 hname
    obtain ⟨header, -, hexport⟩ := exportedBy?_unqualify hnames hheader
    rw [rewritten, hheader] at htext
    rw [← htext] at hexport
    obtain ⟨rest, hrest⟩ := prefix_of_exportedBy? hexport
    refine ⟨header, adapted.text, mem_moduleLines_of_mem_adaptFile hfile hadapted ?_ ?_, hexport⟩
    · rw [← hrest]
      exact List.cons_ne_nil _ _
    · rw [← hrest]
      exact fun e => absurd (List.cons.inj e).1 (by decide)

/-! ## What is reported -/

theorem mem_unexported {exported : List Text} {kind : Kind} {names : NameSet} {m : Missing} :
    m ∈ unexported exported kind names ↔ m.kind = kind ∧ m.name ∈ names ∧ m.name ∉ exported := by
  simp only [unexported, List.mem_map, List.mem_filter]
  constructor
  · rintro ⟨name, ⟨hname, hnot⟩, rfl⟩
    exact ⟨rfl, hname, by simpa using hnot⟩
  · rintro ⟨rfl, hname, hnot⟩
    exact ⟨m.name, ⟨hname, by simpa using hnot⟩, rfl⟩

theorem nodup_unexported (exported : List Text) (kind : Kind) (names : NameSet) :
    (unexported exported kind names).Nodup := by
  refine (names.sorted.filter _).map _ fun {x y} hlt e => ?_
  rw [(Missing.mk.inj e).2] at hlt
  exact List.lt_irrefl y hlt

/-- What a module reports: the enums, structs and exceptions that no recognised header names. -/
theorem mem_missing_composeDeclarations {m : Missing} :
    m ∈ (composeDeclarations ctx files).missing ↔
      m.kind ≠ .service ∧ m.name ∈ namesOf ctx.symbols m.kind ∧ m.name ∉ recognised ctx files := by
  have hparts : m ∈ (composeDeclarations ctx files).missing ↔
      (m ∈ unexported (recognised ctx files) .enumeration ctx.symbols.enums ∨
        m ∈ unexported (recognised ctx files) .struct ctx.symbols.structs) ∨
        m ∈ unexported (recognised ctx files) .exception ctx.symbols.exceptions :=
    List.mem_append.trans (or_congr_left List.mem_append)
  rw [hparts, mem_unexported, mem_unexported, mem_unexported]
  obtain ⟨kind, name⟩ := m
  cases kind <;> simp [namesOf]

theorem nodup_missing (ctx : Context) (files : List Text) : (composeDeclarations ctx files).missing.Nodup := by
  have hapart : ∀ {kind kind' : Kind} {names names' : NameSet}, kind ≠ kind' →
      ∀ a ∈ unexported (recognised ctx files) kind names, ∀ b ∈ unexported (recognised ctx files) kind' names', a ≠ b := by
    rintro kind kind' names names' hne a ha b hb rfl
    exact hne ((mem_unexported.1 ha).1.symm.trans (mem_unexported.1 hb).1)
  refine List.nodup_append.2 ⟨List.nodup_append.2 ⟨nodup_unexported _ _ _, nodup_unexported _ _ _, hapart (by decide)⟩,
    nodup_unexported _ _ _, fun a ha => ?_⟩
  rcases List.mem_append.1 ha with ha | ha
  · exact hapart (by decide) a ha
  · exact hapart (by decide) a ha

end

/-! ## Reports against exports -/

/-- The text exports a declared name: an enum as an enum, a type as a class, a service as its class or as the class of
its client. -/
def ExportsDeclared (text : Text) (m : Missing) : Prop :=
  match m.kind with
  | .enumeration => Exports text .enumeration m.name
  | .service => Exports text .classBody m.name ∨ Exports text .classBody (Symbols.clientOf m.name)
  | _ => Exports text .classBody m.name

/-- What a module reports are the declared names that its text does not export, each once. -/
def ReportsLeftOut (symbols : Symbols) (composed : Composed) : Prop :=
  (∀ m, m ∈ composed.missing ↔ m ∈ declared symbols ∧ ¬ExportsDeclared composed.text m) ∧ composed.missing.Nodup

/-- What a module reports are the enums, structs and exceptions whose name its text exports neither as an enum nor as a
class. -/
def ReportsUnnamed (symbols : Symbols) (composed : Composed) : Prop :=
  ∀ m, m ∈ composed.missing ↔
    m.kind ≠ .service ∧ m.name ∈ namesOf symbols m.kind ∧ ∀ header, ¬Exports composed.text header m.name

/-- Every declared name is exported as what it is declared as, if at all; names with two declarations and services are
exported. -/
structure ExportsAsDeclared (symbols : Symbols) (text : Text) : Prop where
  enums : ∀ name ∈ symbols.enums, Exports text .classBody name → Exports text .enumeration name
  types : ∀ name ∈ symbols.types, Exports text .enumeration name → Exports text .classBody name
  both : ∀ name ∈ symbols.structs, name ∈ symbols.exceptions → ∃ header, Exports text header name
  services : ∀ name ∈ symbols.services, ExportsDeclared text ⟨.service, name⟩

section
variable {symbols : Symbols} {composed : Composed}

theorem ReportsLeftOut.exportsAsDeclared (h : ReportsLeftOut symbols composed) (hmissing : ReportsUnnamed symbols composed) :
    ExportsAsDeclared symbols composed.text := by
  have hleft : ∀ m ∈ declared symbols, ¬ExportsDeclared composed.text m →
      m.kind ≠ .service ∧ ∀ header, ¬Exports composed.text header m.name := fun m hm hnot =>
    have hboth := (hmissing m).1 ((h.1 m).2 ⟨hm, hnot⟩)
    ⟨hboth.1, hboth.2.2⟩
  refine ⟨fun name hname hclass => ?_, fun name hname henum => ?_, fun name hstruct hexception => ?_,
    fun name hname => ?_⟩
  · by_contra hnot
    have hdeclared : ⟨.enumeration, name⟩ ∈ declared symbols := mem_declared.2 ⟨hname, nofun⟩
    exact (hleft _ hdeclared hnot).2 .classBody hclass
  · by_contra hnot
    have hdeclared : ⟨symbols.typeKind name, name⟩ ∈ declared symbols :=
      List.mem_append_left _ (List.mem_append_right _ (List.mem_map.2 ⟨name, hname, rfl⟩))
    refine (hleft _ hdeclared ?_).2 .enumeration henum
    rcases typeKind_cases symbols name with hkind | hkind <;> rw [hkind] <;> exact hnot
  · -- a name that is left out would be reported as a struct too
    by_contra hnot
    have hstruct' : ⟨.struct, name⟩ ∈ composed.missing := (hmissing _).2 ⟨nofun, hstruct, not_exists.1 hnot⟩
    exact (mem_declared.1 ((h.1 _).1 hstruct').1).2 rfl hexception
  · by_contra hnot
    have hdeclared : ⟨.service, name⟩ ∈ declared symbols := mem_declared.2 ⟨hname, nofun⟩
    exact (hleft _ hdeclared hnot).1 rfl

/-- A declared name that is exported with any keyword is exported as what it is declared as. -/
theorem ExportsAsDeclared.exportsDeclared (h : ExportsAsDeclared symbols composed.text) {m : Missing}
    (hm : m.name ∈ namesOf symbols m.kind) {header : Header} (hexport : Exports composed.text header m.name) :
    ExportsDeclared composed.text m := by
  obtain ⟨kind, name⟩ := m
  cases kind with
  | enumeration =>
    cases header with
    | enumeration => exact hexport
    | classBody => exact h.enums name hm hexport
  | struct =>
    cases header with
    | enumeration => exact h.types name (Symbols.mem_types.2 (.inl hm)) hexport
    | classBody => exact hexport
  | exception =>
    cases header with
    | enumeration => exact h.types name (Symbols.mem_types.2 (.inr hm)) hexport
    | classBody => exact hexport
  | service => exact h.services name hm

theorem ExportsAsDeclared.reportsLeftOut (h : ExportsAsDeclared symbols composed.text)
    (hmissing : ReportsUnnamed symbols composed) (hnodup : composed.missing.Nodup) : ReportsLeftOut symbols composed := by
  refine ⟨fun m => ⟨fun hm => ?_, fun ⟨hdeclared, hnot⟩ => ?_⟩, hnodup⟩
  · obtain ⟨hkind, hname, hnone⟩ := (hmissing m).1 hm
    obtain ⟨kind, name⟩ := m
    refine ⟨mem_declared.2 ⟨hname, fun hstruct hexception => ?_⟩, ?_⟩
    · cases hstruct
      obtain ⟨header, hexport⟩ := h.both name hname hexception
      exact hnone header hexport
    · cases kind with
      | enumeration => exact hnone .enumeration
      | struct => exact hnone .classBody
      | exception => exact hnone .classBody
      | service => exact absurd rfl hkind
  · obtain ⟨hname, -⟩ := mem_declared.1 hdeclared
    refine (hmissing m).2 ⟨fun hkind => ?_, hname, fun header hexport => hnot (h.exportsDeclared hname hexport)⟩
    obtain ⟨kind, name⟩ := m
    cases hkind
    exact hnot (h.services name hname)

end

/-- What a declaration module reports: the enums, structs and exceptions whose name its text exports neither as an enum
nor as a class, each once. These are the declared names that it leaves out exactly if no enum is hidden by a class and no
type by an enum of its name, no name that is left out is declared both as a struct and as an exception, and no service is
left out. -/
theorem declarations_report_iff {ctx : Context} {files : List Text} (hproject : '\n' ∉ ctx.project)
    (hnames : HasDottedNames ctx) (hlines : ExportsHeadersOnly ctx files) :
    ReportsUnnamed ctx.symbols (composeDeclarations ctx files) ∧ (composeDeclarations ctx files).missing.Nodup ∧
      (ReportsLeftOut ctx.symbols (composeDeclarations ctx files) ↔
        ExportsAsDeclared ctx.symbols (composeDeclarations ctx files).text) := by
  have hmissing : ReportsUnnamed ctx.symbols (composeDeclarations ctx files) := fun m => by
    rw [mem_missing_composeDeclarations, ← exists_exports_iff hproject hnames hlines, not_exists]
  have hnodup := nodup_missing ctx files
  exact ⟨hmissing, hnodup, fun h => h.exportsAsDeclared hmissing, fun h => h.reportsLeftOut hmissing hnodup⟩

def demo (declarations : Text) : Context :=
  let source := Idl.Source.ofText "demo.thrift".toList declarations
  ⟨"app".toList, source, "demo".toList, .ofSource source, .empty⟩

/-- An enum that is exported and a struct that is not. -/
theorem declarations_report_struct :
    let ctx := demo "enum Color \x7b\x7d\nstruct Point \x7b\x7d".toList
    let files := ["declare module demo \x7b\n  enum Color \x7b\n    RED = 0,\n  \x7d\n\x7d\n".toList]
    (composeDeclarations ctx files).missing = [⟨.struct, "Point".toList⟩] ∧
      Exports (composeDeclarations ctx files).text .enumeration "Color".toList ∧
      ReportsLeftOut ctx.symbols (composeDeclarations ctx files) := by
  intro ctx files
  have hnames : HasDottedNames ctx := by
    unfold HasDottedNames
    decide
  have hlines : ExportsHeadersOnly ctx files := by
    unfold ExportsHeadersOnly
    decide +kernel
  have hcolor : Exports (composeDeclarations ctx files).text .enumeration "Color".toList := by decide +kernel
  obtain ⟨-, -, hiff⟩ := declarations_report_iff (by decide) hnames hlines
  have hexceptions : ctx.symbols.exceptions.toList = [] := by decide +kernel
  have hservices : ctx.symbols.services.toList = [] := by decide +kernel
  refine ⟨by decide +kernel, hcolor, hiff.2 ⟨by decide +kernel, by decide +kernel, fun name _ hname => ?_,
    fun name hname => ?_⟩⟩
  · rw [NameSet.mem_def, hexceptions] at hname
    cases hname
  · rw [NameSet.mem_def, hservices] at hname
    cases hname

/-- A service is never reported, and a name that is declared twice is reported twice. -/
theorem unreported_service :
    ¬ReportsLeftOut (demo "service Calc \x7b\x7d".toList).symbols
        (composeDeclarations (demo "service Calc \x7b\x7d".toList) []) ∧
      (composeDeclarations (demo "struct Oops \x7b\x7d\nexception Oops \x7b\x7d".toList) []).missing =
        [⟨.struct, "Oops".toList⟩, ⟨.exception, "Oops".toList⟩] := by
  refine ⟨fun h => ?_, by decide +kernel⟩
  have hdeclared : ⟨.service, "Calc".toList⟩ ∈ declared (demo "service Calc \x7b\x7d".toList).symbols := by
    decide +kernel
  have hnot : ¬ExportsDeclared (composeDeclarations (demo "service Calc \x7b\x7d".toList) []).text
      ⟨.service, "Calc".toList⟩ :=
    not_or.2 ⟨by decide +kernel, by decide +kernel⟩
  exact absurd ((h.1 _).2 ⟨hdeclared, hnot⟩) (by decide +kernel)

end ThriftModules.Module
