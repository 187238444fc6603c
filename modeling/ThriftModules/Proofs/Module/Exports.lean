import ThriftModules.Module.Script
import ThriftModules.Proofs.Script.Sequence

/-!
# Reading a composed script module

* `declared`, `exportOf` : the declared names in module order, and the export of each;
* `IsExport` : what the assignment that exports a declared name looks like;
* `yields_import`, `yields_enum`, `yields_closure` : how the parts of a module are read;
* `composeScript_exports` : the module is read as one assignment for each declared name that has code.
-/

namespace ThriftModules.Module

set_option autoImplicit false

open Idl (Symbols Kind)
open Script

/-! ## Declared names -/

/-- The declared names in module order, each with the kind that it is reported under. -/
def declared (symbols : Symbols) : List Missing :=
  symbols.enums.toList.map (⟨.enumeration, ·⟩) ++
    symbols.types.toList.map (fun name => ⟨symbols.typeKind name, name⟩) ++ symbols.services.toList.map (⟨.service, ·⟩)

def exportOf (symbols : Symbols) (found : List Assignment) (m : Missing) : Export :=
  match m.kind with
  | .enumeration => exportEnum found m.name
  | .service => exportService found m.name
  | _ => exportType symbols found m.name

theorem typeKind_cases (symbols : Symbols) (name : Text) :
    symbols.typeKind name = .struct ∨ symbols.typeKind name = .exception := by
  rw [Symbols.typeKind]
  split
  · exact .inr rfl
  · exact .inl rfl

theorem exportOf_type (symbols : Symbols) (found : List Assignment) (name : Text) :
    exportOf symbols found ⟨symbols.typeKind name, name⟩ = exportType symbols found name := by
  rcases typeKind_cases symbols name with h | h <;> rw [h] <;> rfl

theorem exports_eq (symbols : Symbols) (found : List Assignment) :
    exports symbols found = (declared symbols).map (exportOf symbols found) := by
  rw [exports, declared, List.map_append, List.map_append, List.map_map, List.map_map, List.map_map]
  simp only [Function.comp_def, exportOf_type]
  rfl

def namesOf (symbols : Symbols) : Kind → NameSet
  | .enumeration => symbols.enums
  | .struct => symbols.structs
  | .exception => symbols.exceptions
  | .service => symbols.services

theorem typeKind_of_mem {symbols : Symbols} {name : Text} (h : name ∈ symbols.exceptions) :
    symbols.typeKind name = .exception := by
  rw [Symbols.typeKind, Symbols.isException, decide_eq_true h]
  rfl

theorem typeKind_of_notMem {symbols : Symbols} {name : Text} (h : name ∉ symbols.exceptions) :
    symbols.typeKind name = .struct := by
  rw [Symbols.typeKind, Symbols.isException, decide_eq_false h]
  rfl

/-- A name that is declared both as a struct and as an exception counts as an exception. -/
theorem mem_declared {symbols : Symbols} {m : Missing} :
    m ∈ declared symbols ↔ m.name ∈ namesOf symbols m.kind ∧ (m.kind = .struct → m.name ∉ symbols.exceptions) := by
  simp only [declared, List.mem_append, List.mem_map]
  constructor
  · rintro ((⟨name, hname, rfl⟩ | ⟨name, hname, rfl⟩) | ⟨name, hname, rfl⟩)
    · exact ⟨hname, fun h => by cases h⟩
    · by_cases hexception : name ∈ symbols.exceptions
      · rw [typeKind_of_mem hexception]
        exact ⟨hexception, fun h => by cases h⟩
      · rw [typeKind_of_notMem hexception]
        exact ⟨(Symbols.mem_types.1 hname).resolve_right hexception, fun _ => hexception⟩
    · exact ⟨hname, fun h => by cases h⟩
  · rintro ⟨hname, hstruct⟩
    obtain ⟨kind, name⟩ := m
    cases kind with
    | enumeration => exact .inl (.inl ⟨name, hname, rfl⟩)
    | struct => exact .inl (.inr ⟨name, Symbols.mem_types.2 (.inl hname), by rw [typeKind_of_notMem (hstruct rfl)]⟩)
    | exception => exact .inl (.inr ⟨name, Symbols.mem_types.2 (.inr hname), by rw [typeKind_of_mem hname]⟩)
    | service => exact .inr ⟨name, hname, rfl⟩

/-- An export without code carries the name that it is reported with. -/
theorem eq_of_exportOf_eq_error {symbols : Symbols} {found : List Assignment} {m e : Missing}
    (hm : m ∈ declared symbols) (h : exportOf symbols found m = .error e) : e = m := by
  simp only [declared, List.mem_append, List.mem_map] at hm
  rcases hm with (⟨name, -, rfl⟩ | ⟨name, -, rfl⟩) | ⟨name, -, rfl⟩
  · have henum : exportEnum found name = .error e := h
    rw [exportEnum] at henum
    split at henum <;> cases henum
    rfl
  · have htype : exportType symbols found name = .error e := exportOf_type symbols found name ▸ h
    rw [exportType] at htype
    split at htype <;> cases htype
    rfl
  · have hservice : exportService found name = .error e := h
    rw [exportService] at hservice
    split at hservice <;> cases hservice
    rfl

/-- A declared name is left out exactly if its export has no code. -/
theorem mem_missing_iff {ctx : Context} {script : Text} {m : Missing} (hm : m ∈ declared ctx.symbols) :
    m ∈ (composeScript ctx script).missing ↔
      ∃ e, exportOf ctx.symbols (assignments script ctx.ns) m = .error e := by
  rw [composeScript, exports_eq, List.filterMap_map, List.mem_filterMap]
  constructor
  · rintro ⟨n, hn, hmissing⟩
    rw [Function.comp_apply] at hmissing
    cases hexport : exportOf ctx.symbols (assignments script ctx.ns) n with
    | ok lines =>
      rw [hexport] at hmissing
      cases hmissing
    | error e =>
      rw [hexport] at hmissing
      cases hmissing
      rw [← eq_of_exportOf_eq_error hn hexport] at hexport
      exact ⟨m, hexport⟩
  · rintro ⟨e, hexport⟩
    refine ⟨m, hm, ?_⟩
    rw [Function.comp_apply, hexport, eq_of_exportOf_eq_error hm hexport]
    rfl

/-! ## Exported assignments -/

/-- The name under which a declared name is exported: a service is exported as its client. -/
def exportedName (m : Missing) : Text := if m.kind = .service then Symbols.clientOf m.name else m.name

/-- What the exported value of a declared name looks like: an enum is an object with the body of the generated one, but
for blanks at its ends; everything else is a function that is called at once. -/
def IsExportedValue (found : List Assignment) (m : Missing) (value : Value) : Prop :=
  if m.kind = .enumeration then
    ∃ body read, findObject? found m.name = some body ∧ value = .object read ∧ Text.trim read = Text.trim body
  else ∃ inner, value = .other ("(function () \x7b".toList ++ inner ++ "\x7d)()".toList)

def IsExport (found : List Assignment) (m : Missing) (a : Assignment) : Prop :=
  a.target = exportedName m ∧ IsExportedValue found m a.value

/-! ## What an export takes over -/

theorem exists_of_findObject? {found : List Assignment} {target body : Text}
    (h : findObject? found target = some body) : ∃ a ∈ found, a.target = target ∧ a.value = .object body := by
  obtain ⟨a, ha, hbody⟩ := List.exists_of_findSome?_eq_some h
  split at hbody
  · next body' hv =>
    split at hbody <;> cases hbody
    exact ⟨a, ha, ‹_›, hv⟩
  · cases hbody

theorem exists_of_findFunction? {found : List Assignment} {target rest : Text}
    (h : findFunction? found target = some rest) : ∃ a ∈ found, a.target = target ∧ a.value = .function rest := by
  obtain ⟨a, ha, hrest⟩ := List.exists_of_findSome?_eq_some h
  split at hrest
  · next rest' hv =>
    split at hrest <;> cases hrest
    exact ⟨a, ha, ‹_›, hv⟩
  · cases hrest

theorem isPath_of_mem_assignments {ns : Namespace} {script : Text} {a : Assignment}
    (hns : ∀ c ∈ ns, Assignment.isTargetChar c = true) (ha : a ∈ assignments script ns) : Member.IsPath a.target := by
  obtain ⟨-, hpath, hchars, -⟩ := exists_of_mem_assignments hns ha
  simp only [Assignment.isMemberPath, Bool.and_eq_true, Bool.not_eq_true', bne_iff_ne] at hpath
  refine ⟨fun e => ?_, fun c hc => ?_, hpath.1.2, hpath.2⟩
  · rw [e] at hpath
    cases hpath.1.1
  · simpa [Assignment.isTargetChar] using hchars c hc

/-! ## Imports -/

theorem startsAfresh_exports (rest : Text) : StartsAfresh ("exports".toList ++ '.' :: rest) := ⟨rfl, rfl⟩

theorem startsAfresh_import (rest : Text) : StartsAfresh ("var ".toList ++ rest) := ⟨rfl, rfl⟩

abbrev exportsName : Namespace := "exports".toList

theorem no_export_of_import (rest : Text) :
    Text.stripStart? (exportsName ++ ['.']) ("var ".toList ++ rest) = none := rfl

section
variable {α : Type} {R : α → Assignment → Prop} {ctx : Context} {ns : Namespace}

theorem yields_import (hproject : ∀ c ∈ ctx.project, c ≠ '\\' ∧ c ≠ '\'' ∧ c ≠ '\n')
    (hns : ∀ c ∈ ns, Assignment.isTargetChar c = true) :
    Yields exportsName R (importLine ctx ns ++ ['\n']) [] := by
  let front : Text := "ar ".toList ++ (ns ++ " = require ".toList)
  let back : List Piece := [.code '(', .literal '\'' (ctx.modulePath ns), .code ')']
  let ps : List Piece := .code 'v' :: (codes front ++ back)
  have hquiet : ∀ c ∈ 'v' :: front, isQuiet c = true := by
    intro c hc
    simp only [front, List.mem_cons, List.mem_append] at hc
    rcases hc with rfl | hc | hc | hc
    · decide
    · exact (by decide : ∀ c ∈ "ar ".toList, isQuiet c = true) c hc
    · exact isQuiet_of_isTargetChar (hns c hc)
    · exact (by decide : ∀ c ∈ " = require ".toList, isQuiet c = true) c hc
  have hpath : Piece.isLiteralBody '\'' (ctx.modulePath ns) = true := by
    refine Piece.isLiteralBody_of_plain fun c hc => ?_
    rw [Context.modulePath, List.mem_append, List.mem_cons] at hc
    rcases hc with hc | rfl | hc
    · obtain ⟨hslash, hquote, hline⟩ := hproject c hc
      exact ⟨hslash, hquote, fun e => absurd e hline⟩
    · decide
    · refine ⟨?_, ?_, ?_⟩ <;> rintro rfl <;> exact absurd (hns _ hc) (by decide)
  have hback : reads back [] = true := by
    refine reads_cons.2 ⟨by decide, fun e => ?_, reads_cons.2 ⟨?_, fun e => ?_, by decide⟩⟩
    · cases e
    · rw [Piece.isClosed, hpath]
      decide
    · cases e
  have hreads : reads ps [] = true :=
    reads_append.2 ⟨reads_codes_of_isQuiet hquiet _, hback⟩
  have hstatement : IsStatement ps := by
    have hfront := depthInside?_codes_of_isQuiet (fun c hc => hquiet c (List.mem_cons_of_mem _ hc)) 0
    exact ⟨by decide, .inl (depthInside?_append hfront rfl)⟩
  have htext : texts ps = "var ".toList ++ (ns ++ " = require ('".toList ++ ctx.modulePath ns ++ ['\'']) ++ [')'] := by
    simp [ps, front, back, Piece.text]
  have hline : importLine ctx ns ++ ['\n'] = texts ps ++ ';' :: ['\n'] := by
    simp [importLine, htext]
  have hfresh : ∀ rest, StartsAfresh (texts ps ++ rest) := by
    intro rest
    rw [htext, List.append_assoc, List.append_assoc]
    exact startsAfresh_import _
  have htrim : Text.trim (texts ps) = texts ps := by
    refine Text.trim_eq_self (fun c hc => ?_) (fun c hc => ?_)
    · cases hc
      decide
    · rw [htext, List.getLast?_concat] at hc
      cases hc
      decide
  rw [hline]
  refine Yields.of_none (isRead_statement hstatement hreads ⟨[.code '\n'], rfl, by decide, by decide⟩ hfresh) ?_
  rw [parseRaw?_of_trim htrim, htext, List.append_assoc, Assignment.parse?, no_export_of_import]
  rfl

end

/-! ## Enums -/

section
variable {found : List Assignment} {name body : Text}

theorem enumExport_eq (name body : Text) :
    enumExport name body =
      "exports.".toList ++ (name ++ (" = \x7b ".toList ++ (Text.trim body ++ [' ']))) ++ ['}'] := by
  show ["exports.".toList, name, " = \x7b ".toList, Text.trim body, " \x7d".toList].flatten = _
  simp

theorem enumExport_eq_statement (name body : Text) :
    enumExport name body =
      (⟨name, .object (' ' :: (Text.trim body ++ [' ']))⟩ : Member).statement exportsName := by
  rw [enumExport_eq, Member.statement, Member.unqualified, Written.text_object]
  simp [exportsName]

theorem isQuiet_of_mem_path (hname : Member.IsPath name) {c : Char} (hc : c ∈ name) : isQuiet c = true :=
  isQuiet_of_isTargetChar (by simpa [Assignment.isTargetChar] using hname.chars c hc)

/-- An exported enum up to its body, as pieces. -/
def enumFront (name : Text) : List Piece := codes "exports.".toList ++ (codes name ++ codes " = \x7b ".toList)

theorem texts_enumFront_append (name : Text) (ps : List Piece) :
    texts (enumFront name ++ ps) = "exports.".toList ++ (name ++ (" = \x7b ".toList ++ texts ps)) := by
  simp only [enumFront, texts_append, texts_codes, List.append_assoc]

theorem reads_enumFront (hname : Member.IsPath name) (rest : Text) : reads (enumFront name) rest = true := by
  have hpath : ∀ rest, reads (codes name) rest = true :=
    reads_codes_of_isQuiet fun c hc => isQuiet_of_mem_path hname hc
  exact reads_append.2 ⟨reads_codes (by decide) _, reads_append.2 ⟨hpath _, reads_codes (by decide) _⟩⟩

theorem within_enumFront (hname : Member.IsPath name) (rest : Text) : within 0 (enumFront name) rest = some 1 := by
  have hpath := depthInside?_codes_of_isQuiet (fun c hc => isQuiet_of_mem_path hname hc) 0
  have hword : depthInside? 0 (codes "exports.".toList) = some 0 := by decide
  exact within_of_depthInside? (depthInside?_append hword (depthInside?_append hpath (by decide))) rest

theorem isRead_enum (hname : Member.IsPath name) {us : List Piece} (hus : texts us = Text.trim body)
    (hreads : reads us [] = true) (hin : ∀ rest, within 1 us rest = some 1) :
    IsRead (enumExport name body ++ ['\n']) [enumExport name body] := by
  have htext : texts (enumFront name ++ (us ++ codes [' '])) ++ ['}'] = enumExport name body := by
    rw [enumExport_eq, texts_enumFront_append, texts_append, texts_codes, hus]
  have hread : reads (enumFront name ++ (us ++ codes [' '])) [] = true :=
    reads_append.2 ⟨reads_enumFront hname _, reads_append.2 ⟨reads_of_reads_nil hreads rfl, by decide⟩⟩
  have hwithin : ∀ rest, within 0 (enumFront name ++ (us ++ codes [' '])) rest = some 1 := by
    have hblank : ∀ rest, within 1 (codes [' ']) rest = some 1 := within_of_depthInside? (by decide)
    exact fun rest => within_append.2 ⟨1, within_enumFront hname _, within_append.2 ⟨1, hin _, hblank _⟩⟩
  have hfresh : ∀ rest, StartsAfresh (texts (enumFront name ++ (us ++ codes [' '])) ++ rest) := by
    intro rest
    rw [texts_enumFront_append]
    exact startsAfresh_exports _
  have hstart : ∃ c r, enumFront name ++ (us ++ codes [' ']) = .code c :: r ∧ isPlain c = true :=
    ⟨'e', _, rfl, by decide⟩
  have hone := isRead_brace hstart hread hwithin hfresh
  have hline : texts (enumFront name ++ (us ++ codes [' '])) ++ ['}', '\n'] = enumExport name body ++ ['\n'] := by
    rw [← htext, List.append_assoc]
    rfl
  rwa [hline, htext] at hone

/-- An exported enum with a comment at the end of its body takes in its brace and what follows it. -/
theorem staysOpen_enum (hname : Member.IsPath name) (h : EndsInComment body) :
    StaysOpen (enumExport name body ++ ['\n']) := by
  obtain ⟨us, x, d, hbody, hx, hreads, hin⟩ := h
  have hcomment : (x ++ " \x7d".toList).any (· == '\n') = false := by
    rw [List.any_append, hx]
    rfl
  refine ⟨enumFront name ++ (us ++ [.lineComment (x ++ " \x7d".toList)]), d, ?_, ⟨'e', _, rfl, by decide⟩,
    fun rest => ?_, fun rest => ?_⟩
  · rw [texts_enumFront_append, enumExport_eq, hbody]
    simp [Piece.text]
  · have hclosed : Piece.isClosed (.lineComment (x ++ " \x7d".toList)) = true := by
      rw [Piece.isClosed, hcomment]
      rfl
    refine reads_append.2 ⟨reads_enumFront hname _, reads_append.2 ⟨(reads_slash us _).trans hreads, ?_⟩⟩
    refine reads_cons.2 ⟨hclosed, fun e => ?_, rfl⟩
    cases e
  · have hlast : within d [.lineComment (x ++ " \x7d".toList)] rest = some d := within_of_depthInside? rfl rest
    exact within_append.2 ⟨1, within_enumFront hname _, within_append.2 ⟨d, hin _, hlast⟩⟩

theorem trim_enumExport (name body : Text) : Text.trim (enumExport name body) = enumExport name body := by
  rw [enumExport_eq]
  refine Text.trim_eq_self (fun c hc => ?_) (fun c hc => ?_)
  · cases hc
    decide
  · rw [List.getLast?_concat] at hc
    cases hc
    decide

theorem isExport_enum (hname : Member.IsPath name) (hfound : findObject? found name = some body) :
    ∃ a, Assignment.parse? exportsName (enumExport name body) = some a ∧ IsExport found ⟨.enumeration, name⟩ a := by
  refine ⟨_, (congrArg _ (enumExport_eq_statement name body)).trans (parse?_statement hname trivial), rfl, ?_⟩
  rw [IsExportedValue, if_pos rfl]
  refine ⟨body, _, hfound, rfl, ?_⟩
  have hblank : Text.isBlank ' ' = true := by decide
  rw [Text.trim_cons_blank hblank, Text.trim_append_blank hblank, Text.trim_trim]

end

/-! ## Closures -/

def closureOf (name inner : Text) : Member :=
  ⟨name, .expression ("(function () \x7b".toList ++ inner ++ "\x7d)()".toList)⟩

theorem closureOf_wellFormed {name inner : Text} (hname : Member.IsPath name) (hinner : IsBalanced inner)
    (hlast : inner.getLast? ≠ some '/') : (closureOf name inner).IsWellFormed := by
  refine ⟨hname.nonempty, hname.chars, hname.head, hname.last, ?_, List.cons_ne_nil _ _, Text.trim_eq_self ?_ ?_, ?_,
    ?_⟩
  · obtain ⟨ps, rfl, hr, hd⟩ := hinner
    refine ⟨codes "(function () \x7b".toList ++ ps ++ codes "\x7d)()".toList, by simp, ?_, ?_⟩
    · rw [List.append_assoc]
      exact reads_append.2 ⟨reads_codes (by decide) _, reads_append.2 ⟨reads_of_getLast? hr hlast _, by decide⟩⟩
    · have hopen : depthInside? 0 (codes "(function () \x7b".toList) = some 2 := by decide
      exact depthInside?_append (depthInside?_append hopen (depthInside?_of_balanced hd 1)) (by decide)
  · rintro c ⟨⟩
    decide
  · intro c hc
    rw [List.getLast?_append_of_ne_nil _ (by decide)] at hc
    cases hc
    decide
  · rintro ⟨⟩
  · rintro rest ⟨⟩

/-- An exported closure is read as a function that is called at once. -/
theorem yields_closure {found : List Assignment} {m : Missing} {inner : Text} (hm : m.kind ≠ .enumeration)
    (hname : Member.IsPath (exportedName m)) (hinner : IsBalanced inner) (hlast : inner.getLast? ≠ some '/') :
    Yields exportsName (IsExport found) ((closureOf (exportedName m) inner).statement exportsName ++ ";\n\n".toList)
      [m] := by
  have hw := closureOf_wellFormed hname hinner hlast
  have hns : exportsName ≠ [] := by decide
  have hchars : ∀ c ∈ exportsName, Idl.isNamespaceChar c = true := by decide
  obtain ⟨ps, hps, hr, hstatement⟩ := exists_pieces_of_statement hns hchars hw
  have hfresh : ∀ rest, StartsAfresh (texts ps ++ rest) := by
    intro rest
    rw [hps, Member.statement, List.append_assoc, List.cons_append]
    exact startsAfresh_exports _
  have hread := isRead_statement hstatement hr ⟨codes "\n\n".toList, rfl, by decide, by decide⟩ hfresh
  rw [hps] at hread
  have hparse := (parseRaw?_of_trim (trim_statement hns hchars hw)).trans
    (parse?_statement hw.isPath hw.written.isLegible)
  refine Yields.of_some hread hparse ⟨rfl, ?_⟩
  rw [IsExportedValue, if_neg hm]
  exact ⟨inner, rfl⟩

/-! ## The lines of a closure -/

theorem unlines_append (ls ls' : List Text) : Text.unlines (ls ++ ls') = Text.unlines ls ++ Text.unlines ls' :=
  List.flatMap_append

/-- The lines of a closure: what stands behind its opening brace, further lines, and its end. -/
theorem unlines_closure (name opening : Text) (lines : List Text) :
    Text.unlines
        (("exports.".toList ++ (name ++ (" = (function () \x7b".toList ++ opening))) :: lines ++ closureEnd name) =
      (closureOf name (Text.unlines (opening :: lines ++ [closed ("return ".toList ++ name)]))).statement exportsName ++
        ";\n\n".toList := by
  have hend : closureEnd name = [closed ("return ".toList ++ name), "\x7d)();".toList, []] := by
    simp [closureEnd, closed]
  rw [hend, closureOf, Member.statement, Member.unqualified, Written.text_expression, unlines_append, unlines_append]
  simp [exportsName, Text.unlines]

theorem getLast?_unlines (ls : List Text) : (Text.unlines ls).getLast? ≠ some '/' := by
  rcases List.eq_nil_or_concat ls with rfl | ⟨ls, l, rfl⟩
  · decide
  · have hlast : Text.unlines (ls.concat l) = Text.unlines ls ++ l ++ ['\n'] := by simp [Text.unlines]
    rw [hlast, List.getLast?_concat]
    decide

section
variable {name : Text} (hname : Member.IsPath name)
include hname

theorem isLine_path_append {t : Text} (h : IsLine t) : IsLine (name ++ t) :=
  h.quiet_append fun _ hc => isQuiet_of_mem_path hname hc

theorem isLine_return : IsLine (closed ("return ".toList ++ name)) := by
  have hempty : IsLine [] := isLine_of_isBalanced ⟨[], rfl, rfl, rfl⟩
  have hpath : IsLine (name ++ []) := isLine_path_append hname hempty
  rw [List.append_nil] at hpath
  exact (hpath.quiet_append (by decide)).closed

theorem isLine_prototype : IsLine (name ++ ".prototype = \x7b\x7d;".toList) := by
  have hrest : IsBalanced ".prototype = \x7b\x7d;".toList := ⟨codes _, texts_codes _, by decide, by decide⟩
  exact isLine_path_append hname (isLine_of_isBalanced hrest)

theorem isLine_exceptionLines {l : Text} (hl : l ∈ exceptionLines name) : IsLine l := by
  have hquiet : ∀ c ∈ name, isQuiet c = true := fun _ hc => isQuiet_of_mem_path hname hc
  simp only [exceptionLines, List.mem_cons, List.not_mem_nil, or_false] at hl
  rcases hl with rfl | rfl
  · let ps := codes "Thrift.inherits(".toList ++ (codes name ++ codes ", Thrift.TException);".toList)
    refine isLine_of_isBalanced ⟨ps, by simp [ps], ?_, ?_⟩
    · exact reads_append.2 ⟨reads_codes (by decide) _, reads_append.2 ⟨reads_codes_of_isQuiet hquiet _, by decide⟩⟩
    · have hpath := depthAfter?_codes_of_isQuiet hquiet 1
      exact depthAfter?_append.2 ⟨1, by decide, depthAfter?_append.2 ⟨1, hpath, by decide⟩⟩
  · have hbody : Piece.isLiteralBody '\'' name = true := by
      refine Piece.isLiteralBody_of_plain fun c hc => ?_
      have htarget : Assignment.isTargetChar c = true := by simpa [Assignment.isTargetChar] using hname.chars c hc
      refine ⟨?_, ?_, ?_⟩ <;> rintro rfl <;> exact absurd htarget (by decide)
    have hliteral : Piece.isClosed (.literal '\'' name) = true := by
      rw [Piece.isClosed, hbody]
      decide
    have hrest : IsLine (".prototype.name = '".toList ++ (name ++ "';".toList)) := by
      refine isLine_of_isBalanced ⟨codes ".prototype.name = ".toList ++ [.literal '\'' name, .code ';'], ?_, ?_, ?_⟩
      · simp [Piece.text]
      · refine reads_append.2 ⟨reads_codes (by decide) _, reads_cons.2 ⟨hliteral, fun e => ?_, by decide⟩⟩
        cases e
      · exact depthAfter?_append.2 ⟨0, by decide, rfl⟩
    simpa using isLine_path_append hname hrest

end

section
variable {ns : Namespace} {script : Text} (hscript : IsLine script)
  (hns : ∀ c ∈ ns, Assignment.isTargetChar c = true)
include hscript hns

theorem yields_typeClosure {m : Missing} {constructor : Text} (exception : Bool) (hm : m.kind ≠ .enumeration)
    (hfound : findFunction? (assignments script ns) (exportedName m) = some constructor) :
    Yields exportsName (IsExport (assignments script ns))
      (Text.unlines (typeClosure (assignments script ns) (exportedName m) constructor exception)) [m] := by
  obtain ⟨a, ha, htarget, hvalue⟩ := exists_of_findFunction? hfound
  have hname : Member.IsPath (exportedName m) := htarget ▸ isPath_of_mem_assignments hns ha
  let codecs := (assignments script ns).filter fun a => isCodecMember (exportedName m) a.target
  let opening := " function ".toList ++ (exportedName m ++ constructor)
  let lines := (exportedName m ++ ".prototype = \x7b\x7d;".toList) ::
    ((if exception then exceptionLines (exportedName m) else []) ++ codecs.map (closed ·.unqualified))
  have htext : typeClosure (assignments script ns) (exportedName m) constructor exception =
      ("exports.".toList ++ (exportedName m ++ (" = (function () \x7b".toList ++ opening))) :: lines ++
        closureEnd (exportedName m) := by
    have hfirst : ["exports.".toList, exportedName m, " = (function () \x7b function ".toList, exportedName m,
        constructor].flatten = "exports.".toList ++ (exportedName m ++ (" = (function () \x7b".toList ++ opening)) := by
      simp [opening]
    rw [← hfirst]
    rfl
  rw [htext, unlines_closure]
  refine yields_closure hm hname (isBalanced_unlines fun l hl => ?_) (getLast?_unlines _)
  simp only [lines, List.cons_append, List.mem_append, List.mem_cons, List.not_mem_nil, or_false, List.mem_map] at hl
  rcases hl with rfl | rfl | (hl | ⟨b, hb, rfl⟩) | rfl
  · exact (isLine_path_append hname (isLine_constructor hscript hns ha hvalue)).quiet_append (by decide)
  · exact isLine_prototype hname
  · split at hl
    · exact isLine_exceptionLines hname hl
    · cases hl
  · exact (isLine_unqualified hscript hns (List.mem_filter.1 hb).1).closed
  · exact isLine_return hname

theorem yields_serviceClosure {m : Missing} (service : Text) {constructor : Text} (hm : m.kind ≠ .enumeration)
    (hfound : findFunction? (assignments script ns) (exportedName m) = some constructor) :
    Yields exportsName (IsExport (assignments script ns))
      (Text.unlines (serviceClosure (assignments script ns) service (exportedName m) constructor)) [m] := by
  obtain ⟨a, ha, htarget, hvalue⟩ := exists_of_findFunction? hfound
  have hname : Member.IsPath (exportedName m) := htarget ▸ isPath_of_mem_assignments hns ha
  let helpers := (assignments script ns).filter (isCallHelper service)
  let members := (assignments script ns).filter fun a => isPrototypePath (exportedName m) a.target
  let function := ["function ".toList, exportedName m, constructor].flatten
  let lines := function :: (helpers.map (closed ·.statement) ++ members.map (closed ·.unqualified))
  have htext : serviceClosure (assignments script ns) service (exportedName m) constructor =
      ("exports.".toList ++ (exportedName m ++ (" = (function () \x7b".toList ++ []))) :: lines ++
        closureEnd (exportedName m) := by
    have hfirst : ["exports.".toList, exportedName m, " = (function () \x7b".toList].flatten =
        "exports.".toList ++ (exportedName m ++ (" = (function () \x7b".toList ++ [])) := by simp
    rw [← hfirst]
    rfl
  rw [htext, unlines_closure]
  refine yields_closure hm hname (isBalanced_unlines fun l hl => ?_) (getLast?_unlines _)
  simp only [lines, List.cons_append, List.mem_append, List.mem_cons, List.not_mem_nil, or_false, List.mem_map] at hl
  rcases hl with rfl | rfl | (⟨b, hb, rfl⟩ | ⟨b, hb, rfl⟩) | rfl
  · exact isLine_of_isBalanced ⟨[], rfl, rfl, rfl⟩
  · have hfunction : function = "function ".toList ++ (exportedName m ++ constructor) := by simp [function]
    rw [hfunction]
    exact (isLine_path_append hname (isLine_constructor hscript hns ha hvalue)).quiet_append (by decide)
  · exact (isLine_statement hscript hns (List.mem_filter.1 hb).1).closed
  · exact (isLine_unqualified hscript hns (List.mem_filter.1 hb).1).closed
  · exact isLine_return hname

theorem yields_enumExport {name body : Text} (hfound : findObject? (assignments script ns) name = some body)
    (hbody : TakesBrace body) :
    Yields exportsName (IsExport (assignments script ns)) (enumExport name body ++ ['\n']) [⟨.enumeration, name⟩] := by
  obtain ⟨a, ha, htarget, hvalue⟩ := exists_of_findObject? hfound
  have hname : Member.IsPath name := htarget ▸ isPath_of_mem_assignments hns ha
  obtain ⟨us, hus, hreads, hin⟩ := (isWhole_or_endsInComment_of_mem hscript hns ha hvalue).resolve_right
    fun hcomment => hcomment.not_takesBrace hbody
  obtain ⟨b, hparse, hexport⟩ := isExport_enum hname hfound
  exact Yields.of_some (isRead_enum hname hus hreads hin)
    ((parseRaw?_of_trim (trim_enumExport name body)).trans hparse) hexport

theorem staysOpen_enumExport {name body : Text} (hfound : findObject? (assignments script ns) name = some body)
    (hbody : ¬TakesBrace body) : Member.IsPath name ∧ StaysOpen (enumExport name body ++ ['\n']) := by
  obtain ⟨a, ha, htarget, hvalue⟩ := exists_of_findObject? hfound
  have hname : Member.IsPath name := htarget ▸ isPath_of_mem_assignments hns ha
  have hcomment := (isWhole_or_endsInComment_of_mem hscript hns ha hvalue).resolve_left
    fun hwhole => hbody hwhole.takesBrace
  exact ⟨hname, staysOpen_enum hname hcomment⟩

/-- No body of an exported enum ends in a comment that takes the brace behind it. -/
def Closes (found : List Assignment) (m : Missing) : Prop :=
  m.kind = .enumeration → ∀ body ∈ findObject? found m.name, TakesBrace body

instance (found : List Assignment) (m : Missing) : Decidable (Closes found m) :=
  inferInstanceAs (Decidable (_ → _))

/-- An export that has code is read as the assignment that exports its name, if its brace closes it. -/
theorem yields_of_exportOf_eq_ok {symbols : Symbols} {m : Missing} {lines : List Text} (hm : m ∈ declared symbols)
    (h : exportOf symbols (assignments script ns) m = .ok lines) (hcloses : Closes (assignments script ns) m) :
    Yields exportsName (IsExport (assignments script ns)) (Text.unlines lines) [m] := by
  simp only [declared, List.mem_append, List.mem_map] at hm
  rcases hm with (⟨name, -, rfl⟩ | ⟨name, -, rfl⟩) | ⟨name, -, rfl⟩
  · have henum : exportEnum (assignments script ns) name = .ok lines := h
    rw [exportEnum] at henum
    split at henum
    · next body hfound =>
      cases henum
      have hline : Text.unlines [enumExport name body] = enumExport name body ++ ['\n'] := List.append_nil _
      rw [hline]
      exact yields_enumExport hscript hns hfound (hcloses rfl body hfound)
    · cases henum
  · have hkind := typeKind_cases symbols name
    have htype : exportType symbols (assignments script ns) name = .ok lines := exportOf_type _ _ name ▸ h
    have hexported : exportedName ⟨symbols.typeKind name, name⟩ = name := by
      rcases hkind with hk | hk <;> rw [hk] <;> rfl
    rw [exportType] at htype
    split at htype
    · next constructor hfound =>
      cases htype
      have hm : (⟨symbols.typeKind name, name⟩ : Missing).kind ≠ .enumeration := by
        rcases hkind with hk | hk <;> simp [hk]
      have hclosure := yields_typeClosure hscript hns (symbols.isException name) hm (by rw [hexported]; exact hfound)
      rwa [hexported] at hclosure
    · cases htype
  · have hservice : exportService (assignments script ns) name = .ok lines := h
    rw [exportService] at hservice
    split at hservice
    · next constructor hfound =>
      cases hservice
      exact yields_serviceClosure hscript hns name (m := ⟨.service, name⟩) (by simp) hfound
    · cases hservice

end

end ThriftModules.Module
