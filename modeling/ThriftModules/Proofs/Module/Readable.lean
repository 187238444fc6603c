import ThriftModules.Proofs.Module.Exports

/-!
# Which composed script modules are read back

* `exported`, `block` : the declared names that have code, and the text of the export of each;
* `composeScript_text`, `yields_front` : a module as its imports and blocks, and how it is read up to a block;
* `staysOpen_of_endsInComment`, `closes_of_reading` : an enum that ends in a comment takes in what follows it;
* `composeScript_exports` : a module is read as one assignment for each exported name exactly if no enum but the last
  exported name ends in a comment.
-/

namespace ThriftModules.Module

set_option autoImplicit false

open Script

def exported (ctx : Context) (script : Text) : List Missing :=
  (declared ctx.symbols).filter (· ∉ (composeScript ctx script).missing)

def block (ctx : Context) (script : Text) (m : Missing) : Text :=
  Text.unlines (exportOf ctx.symbols (assignments script ctx.ns) m).lines

section
variable {ctx : Context} {script : Text} {m : Missing}

theorem exists_of_mem_exported (hm : m ∈ exported ctx script) :
    m ∈ declared ctx.symbols ∧ ∃ lines, exportOf ctx.symbols (assignments script ctx.ns) m = .ok lines := by
  obtain ⟨hdeclared, hkept⟩ := List.mem_filter.1 hm
  refine ⟨hdeclared, ?_⟩
  cases hexport : exportOf ctx.symbols (assignments script ctx.ns) m with
  | ok lines => exact ⟨lines, rfl⟩
  | error e => exact absurd ((mem_missing_iff hdeclared).2 ⟨e, hexport⟩) (of_decide_eq_true hkept)

/-- A module is its imports and the exports of the names that have code. -/
theorem composeScript_text (ctx : Context) (script : Text) :
    (composeScript ctx script).text =
      Text.unlines (importLines ctx) ++ (exported ctx script).flatMap (block ctx script) := by
  have hblock : ∀ m ∈ declared ctx.symbols, block ctx script m =
      ([m].filter (· ∉ (composeScript ctx script).missing)).flatMap (block ctx script) := by
    intro m hm
    by_cases hout : m ∈ (composeScript ctx script).missing
    · obtain ⟨e, hexport⟩ := (mem_missing_iff hm).1 hout
      rw [List.filter_cons_of_neg (by simpa using hout), block, hexport]
      rfl
    · rw [List.filter_cons_of_pos (by simpa using hout)]
      exact (List.append_nil _).symm
  have hall : (exported ctx script).flatMap (block ctx script) = (declared ctx.symbols).flatMap (block ctx script) := by
    rw [exported, ← List.flatMap_singleton' (declared ctx.symbols), List.filter_flatMap, List.flatMap_assoc,
      List.flatMap_singleton', List.flatMap_congr hblock]
  have htext : (composeScript ctx script).text = Text.unlines (importLines ctx ++
      (exports ctx.symbols (assignments script ctx.ns)).flatMap Export.lines) := rfl
  rw [htext, unlines_append, hall, exports_eq, List.flatMap_map, Text.unlines, Text.unlines, List.flatMap_assoc]
  rfl

theorem exists_block_eq (hm : m ∈ exported ctx script) :
    ∃ rest, block ctx script m = "exports".toList ++ '.' :: rest := by
  obtain ⟨hdeclared, lines, hexport⟩ := exists_of_mem_exported hm
  rw [block, hexport]
  simp only [declared, List.mem_append, List.mem_map] at hdeclared
  rcases hdeclared with (⟨name, -, rfl⟩ | ⟨name, -, rfl⟩) | ⟨name, -, rfl⟩
  · have henum : exportEnum (assignments script ctx.ns) name = .ok lines := hexport
    rw [exportEnum] at henum
    split at henum <;> cases henum
    exact ⟨_, rfl⟩
  · have htype : exportType ctx.symbols (assignments script ctx.ns) name = .ok lines := exportOf_type _ _ name ▸ hexport
    rw [exportType] at htype
    split at htype <;> cases htype
    exact ⟨_, rfl⟩
  · have hservice : exportService (assignments script ctx.ns) name = .ok lines := hexport
    rw [exportService] at hservice
    split at hservice <;> cases hservice
    exact ⟨_, rfl⟩

end

/-! ## Up to a block -/

section
variable {ctx : Context} {script : Text} (hscript : IsLine script)
  (hproject : ∀ c ∈ ctx.project, c ≠ '\\' ∧ c ≠ '\'' ∧ c ≠ '\n')
  (hns : ∀ ns ∈ ctx.includes.namespaces.insert ctx.ns, ∀ c ∈ ns, Assignment.isTargetChar c = true)

include hproject hns in
theorem yields_imports {α : Type} {R : α → Assignment → Prop} :
    Yields exportsName R (Text.unlines (importLines ctx)) [] := by
  have hall := Yields.flatMap fun ns hmem => yields_import (R := R) hproject (hns ns hmem)
  rw [List.flatMap_eq_nil_iff.2 fun _ _ => rfl] at hall
  rwa [importLines, Text.unlines, List.flatMap_map]

include hscript hproject hns

/-- The imports and the blocks of names whose braces close them. -/
theorem yields_front {ms : List Missing} (hms : ∀ m ∈ ms, m ∈ exported ctx script)
    (hcloses : ∀ m ∈ ms, Closes (assignments script ctx.ns) m) :
    Yields exportsName (IsExport (assignments script ctx.ns))
      (Text.unlines (importLines ctx) ++ ms.flatMap (block ctx script)) ms := by
  have hown := hns ctx.ns (NameSet.mem_insert.2 (.inl rfl))
  have hblocks : ∀ m ∈ ms, Yields exportsName (IsExport (assignments script ctx.ns)) (block ctx script m) [m] := by
    intro m hm
    obtain ⟨hdeclared, lines, hexport⟩ := exists_of_mem_exported (hms m hm)
    rw [block, hexport]
    exact yields_of_exportOf_eq_ok hscript hown hdeclared hexport (hcloses m hm)
  have hall := (yields_imports hproject hns).append (Yields.flatMap hblocks)
  rwa [List.nil_append, List.flatMap_singleton'] at hall

end

/-! ## An enum that stays open -/

/-- What is read of an enum that takes in what follows it is not the enum. -/
theorem not_isExport_of_open {found : List Assignment} {name body u : Text} (hname : Member.IsPath name)
    (hfound : findObject? found name = some body) :
    ∃ a, parseRaw? exportsName (enumExport name body ++ ['\n'] ++ 'e' :: u) = some a ∧
      ¬IsExport found ⟨.enumeration, name⟩ a := by
  let e : Text := '{' :: ' ' :: (Text.trim body ++ " \x7d\ne".toList ++ Text.trimEnd u)
  have hstart : Text.trimStart e = e := Text.trimStart_eq_self fun c hc => by cases hc; decide
  have htrim : Text.trim (enumExport name body ++ ['\n'] ++ 'e' :: u) =
      exportsName ++ '.' :: (name ++ " = ".toList ++ e) := by
    have hfirst : Text.trimStart (enumExport name body ++ ['\n'] ++ 'e' :: u) =
        enumExport name body ++ ['\n'] ++ 'e' :: u := by
      refine Text.trimStart_eq_self fun c hc => ?_
      rw [enumExport_eq] at hc
      cases hc
      decide
    rw [Text.trim, hfirst, Text.trimEnd_append_cons (by decide), enumExport_eq]
    simp [e, exportsName]
  refine ⟨_, (parseRaw?_of_trim htrim).trans (parse?_path hname hstart), fun hexport => ?_⟩
  obtain ⟨body', read, hbody', hread, hread'⟩ := hexport.2
  cases hfound.symm.trans hbody'
  -- the characters that are not blank are counted: the brace and a letter are too many
  have hcount : (read.filter (! Text.isBlank ·)).length = ((Text.trim body).filter (! Text.isBlank ·)).length := by
    rw [← Text.filter_trim read, hread', Text.filter_trim]
  have hobject : e = '{' :: (read ++ ['}']) := eq_of_classify_object hread
  have hinside : ' ' :: (Text.trim body ++ " \x7d\ne".toList ++ Text.trimEnd u) = read ++ ['}'] :=
    (List.cons.inj hobject).2
  have hlen := congrArg (fun t => (List.filter (! Text.isBlank ·) t).length) hinside
  have hblank : (' ' :: (Text.trim body ++ " \x7d\ne".toList ++ Text.trimEnd u)).filter (! Text.isBlank ·) =
      (Text.trim body).filter (! Text.isBlank ·) ++ ['}', 'e'] ++ (Text.trimEnd u).filter (! Text.isBlank ·) := by
    rw [List.filter_cons_of_neg (by decide), List.filter_append, List.filter_append]
    rfl
  have hbrace : ['}'].filter (! Text.isBlank ·) = ['}'] := rfl
  simp only [hblank, List.filter_append, hbrace, List.length_append, List.length_cons, List.length_nil] at hlen
  omega

theorem block_enum {ctx : Context} {script name body : Text}
    (hfound : findObject? (assignments script ctx.ns) name = some body) :
    block ctx script ⟨.enumeration, name⟩ = enumExport name body ++ ['\n'] := by
  have hexport : exportOf ctx.symbols (assignments script ctx.ns) ⟨.enumeration, name⟩ =
      .ok [enumExport name body] := by
    show exportEnum (assignments script ctx.ns) name = _
    rw [exportEnum, hfound]
  rw [block, hexport]
  exact List.append_nil _

theorem startsAfresh_enum (name body rest : Text) : StartsAfresh (enumExport name body ++ rest) := by
  rw [enumExport_eq]
  exact startsAfresh_exports _

section
variable {ctx : Context} {script : Text} (hscript : IsLine script)
  (hproject : ∀ c ∈ ctx.project, c ≠ '\\' ∧ c ≠ '\'' ∧ c ≠ '\n')
  (hns : ∀ ns ∈ ctx.includes.namespaces.insert ctx.ns, ∀ c ∈ ns, Assignment.isTargetChar c = true)
include hscript hproject hns

theorem closes_of_reading {ms ls : List Missing} {m : Missing} (hsplit : exported ctx script = ms ++ m :: ls)
    (hms : ∀ k ∈ ms, Closes (assignments script ctx.ns) k) (hls : ls ≠ [])
    (hread : List.Forall₂ (IsExport (assignments script ctx.ns)) (exported ctx script)
      (assignments (composeScript ctx script).text exportsName)) : Closes (assignments script ctx.ns) m := by
  intro hkind body hfound
  by_contra hbody
  obtain ⟨name, rfl⟩ : ∃ name, m = ⟨.enumeration, name⟩ := ⟨m.name, by rw [← hkind]⟩
  have hmem : ∀ k ∈ ms ++ ⟨.enumeration, name⟩ :: ls, k ∈ exported ctx script := fun k hk => hsplit ▸ hk
  have hfront := yields_front hscript hproject hns (fun k hk => hmem k (List.mem_append_left _ hk)) hms
  obtain ⟨hname, hopen⟩ := staysOpen_enumExport hscript (hns ctx.ns (NameSet.mem_insert.2 (.inl rfl))) hfound hbody
  obtain ⟨more, hmore⟩ : ∃ more, ls.flatMap (block ctx script) = 'e' :: more := by
    obtain ⟨l, ls, rfl⟩ := List.exists_cons_of_ne_nil hls
    obtain ⟨rest, hrest⟩ := exists_block_eq (hmem l (by simp))
    exact ⟨"xports".toList ++ '.' :: rest ++ ls.flatMap (block ctx script), by rw [List.flatMap_cons, hrest]; rfl⟩
  have htext : (composeScript ctx script).text = (Text.unlines (importLines ctx) ++ ms.flatMap (block ctx script)) ++
      ((enumExport name body ++ ['\n'] ++ ['e']) ++ more) := by
    rw [composeScript_text, hsplit, List.flatMap_append, List.flatMap_cons, block_enum hfound, hmore]
    simp only [List.append_assoc, List.cons_append, List.nil_append]
  have hfresh : StartsAfresh ((enumExport name body ++ ['\n'] ++ ['e']) ++ more) := by
    rw [List.append_assoc, List.append_assoc]
    exact startsAfresh_enum name body _
  obtain ⟨as, u, bs, has, hall⟩ := hfront.assignments_open (hopen.concat (by decide : isQuiet 'e' = true)) hfresh
  obtain ⟨a, hparse, hno⟩ := not_isExport_of_open (u := u) hname hfound
  have hstatement : enumExport name body ++ ['\n'] ++ ['e'] ++ u = enumExport name body ++ ['\n'] ++ 'e' :: u := by simp
  rw [hsplit, htext, hall, hstatement, hparse] at hread
  have hrest := List.forall₂_drop_append _ _ _ hread
  rw [← has.length_eq, List.drop_left] at hrest
  cases hrest with
  | cons hexport _ => exact hno hexport

/-- A module is read back if no enum but the last exported name takes in what follows it. -/
theorem reading_of_closes {ms : List Missing} {m : Missing} (hsplit : exported ctx script = ms ++ [m])
    (hms : ∀ k ∈ ms, Closes (assignments script ctx.ns) k) :
    List.Forall₂ (IsExport (assignments script ctx.ns)) (exported ctx script)
      (assignments (composeScript ctx script).text exportsName) := by
  have hmem : ∀ k ∈ ms ++ [m], k ∈ exported ctx script := fun k hk => hsplit ▸ hk
  by_cases hm : Closes (assignments script ctx.ns) m
  · have hall : ∀ k ∈ ms ++ [m], Closes (assignments script ctx.ns) k := fun k hk =>
      (List.mem_append.1 hk).elim (hms k) fun h => List.mem_singleton.1 h ▸ hm
    rw [composeScript_text, hsplit]
    exact (yields_front hscript hproject hns hmem hall).assignments
  · obtain ⟨hkind, body, hfound, hbody⟩ : m.kind = .enumeration ∧ ∃ body,
        findObject? (assignments script ctx.ns) m.name = some body ∧ ¬TakesBrace body := by
      simpa [Closes] using hm
    obtain ⟨name, rfl⟩ : ∃ name, m = ⟨.enumeration, name⟩ := ⟨m.name, by rw [← hkind]⟩
    have hfront := yields_front hscript hproject hns (fun k hk => hmem k (List.mem_append_left _ hk)) hms
    obtain ⟨hname, hopen⟩ := staysOpen_enumExport hscript (hns ctx.ns (NameSet.mem_insert.2 (.inl rfl))) hfound hbody
    obtain ⟨as, has, hall⟩ := hfront.assignments_end hopen (startsAfresh_enum name body _)
    obtain ⟨a, hparse, hexport⟩ := isExport_enum hname hfound
    have htrim : Text.trim (enumExport name body ++ ['\n']) = enumExport name body := by
      rw [Text.trim_append_blank (by decide), trim_enumExport]
    have htext : (composeScript ctx script).text =
        (Text.unlines (importLines ctx) ++ ms.flatMap (block ctx script)) ++ (enumExport name body ++ ['\n']) := by
      rw [composeScript_text, hsplit, List.flatMap_append, List.flatMap_cons, block_enum hfound, List.flatMap_nil,
        List.append_nil, List.append_assoc]
    rw [htext, hall, hsplit, parseRaw?_of_trim htrim, hparse]
    exact List.rel_append has (.cons hexport .nil)

/-- Reading a composed script module. The generated script may be any in which literals and comments are closed and
brackets balance. Each declared name that has code is read as one assignment to the exports, in module order, exactly if
no body of an enum but that of the last exported name ends in a comment that takes the brace behind it. -/
theorem composeScript_exports :
    List.Forall₂ (IsExport (assignments script ctx.ns)) (exported ctx script)
        (assignments (composeScript ctx script).text exportsName) ↔
      ∀ m ∈ (exported ctx script).dropLast, Closes (assignments script ctx.ns) m := by
  constructor
  · intro hread
    suffices hall : ∀ ls ms, exported ctx script = ms ++ ls → (∀ k ∈ ms, Closes (assignments script ctx.ns) k) →
        ∀ m ∈ ls.dropLast, Closes (assignments script ctx.ns) m from
      hall _ [] rfl fun k hk => (List.not_mem_nil hk).elim
    intro ls
    induction ls with
    | nil => exact fun _ _ _ m hm => (List.not_mem_nil hm).elim
    | cons l ls ih =>
      intro ms hsplit hms
      by_cases hls : ls = []
      · subst hls
        exact fun m hm => (List.not_mem_nil hm).elim
      · have hl := closes_of_reading hscript hproject hns hsplit hms hls hread
        rw [List.dropLast_cons_of_ne_nil hls]
        refine List.forall_mem_cons.2 ⟨hl, ih (ms ++ [l]) (by rw [hsplit, List.append_assoc]; rfl) fun k hk => ?_⟩
        exact (List.mem_append.1 hk).elim (hms k) fun h => List.mem_singleton.1 h ▸ hl
  · intro hcloses
    rcases List.eq_nil_or_concat (exported ctx script) with hnil | ⟨ms, m, hlast⟩
    · rw [composeScript_text, hnil]
      exact (yields_front hscript hproject hns (by simp) (by simp)).assignments
    · rw [List.concat_eq_append] at hlast
      rw [hlast, List.dropLast_concat] at hcloses
      exact reading_of_closes hscript hproject hns hlast hcloses

end

def sampleContext : Context :=
  let source := Idl.Source.ofText []
    "enum Color \x7b\x7d struct Point \x7b\x7d struct Gone \x7b\x7d service Calc \x7b\x7d".toList
  ⟨"app".toList, source, "demo".toList, .ofSource source, .ofEdges [⟨"c".toList, "c.thrift".toList, "a.c".toList⟩]⟩

def sampleScript : Text :=
  "demo.Color = \x7b\n'A' : 0, // '\n'B' : 1 \x7d;\ndemo.Point = function(a) \x7b\n this.x = '\x7d';\n\x7d;\n".toList ++
    "demo.CalcClient = function(o) \x7b\x7d; // end".toList

theorem isLine_sampleScript : IsLine sampleScript :=
  ⟨codes "demo.Color = \x7b\n".toList ++ [.literal '\'' "A".toList] ++ codes " : 0, ".toList ++
      [.lineComment " '".toList, .literal '\'' "B".toList] ++
      codes " : 1 \x7d;\ndemo.Point = function(a) \x7b\n this.x = ".toList ++ [.literal '\'' "\x7d".toList] ++
      codes ";\n\x7d;\ndemo.CalcClient = function(o) \x7b\x7d; ".toList ++ [.lineComment " end".toList],
    by decide +kernel, by decide +kernel, by decide +kernel⟩

/-- Three of four declared names are read back. -/
theorem composeScript_exports_sample :
    exported sampleContext sampleScript =
        [⟨.enumeration, "Color".toList⟩, ⟨.struct, "Point".toList⟩, ⟨.service, "Calc".toList⟩] ∧
      List.Forall₂ (IsExport (assignments sampleScript sampleContext.ns)) (exported sampleContext sampleScript)
        (assignments (composeScript sampleContext sampleScript).text exportsName) := by
  have hns : ∀ ns ∈ (sampleContext.includes.namespaces.insert sampleContext.ns).toList,
      ∀ c ∈ ns, Assignment.isTargetChar c = true := by decide +kernel
  have hproject : ∀ c ∈ sampleContext.project, c ≠ '\\' ∧ c ≠ '\'' ∧ c ≠ '\n' := by decide
  exact ⟨by decide +kernel, (composeScript_exports isLine_sampleScript hproject hns).2 (by decide +kernel)⟩

def swallowingContext : Context :=
  let source := Idl.Source.ofText [] "enum E \x7b\x7d\nenum F \x7b\x7d".toList
  ⟨"app".toList, source, "demo".toList, .ofSource source, .empty⟩

def swallowingScript : Text :=
  "demo.E = \x7b\n 'A' : 0 // last\n\x7d;\ndemo.F = \x7b'B' : 0\x7d;\n".toList

/-- The first enum takes in the second one, so one assignment is read for two exported names. -/
theorem exported_enum_swallowed :
    IsLine swallowingScript ∧ (composeScript swallowingContext swallowingScript).missing = [] ∧
      declared swallowingContext.symbols = [⟨.enumeration, "E".toList⟩, ⟨.enumeration, "F".toList⟩] ∧
      (assignments (composeScript swallowingContext swallowingScript).text exportsName).map
          (fun a => (a.target, a.value)) =
        [("E".toList, .object " 'A' : 0 // last \x7d\nexports.F = \x7b 'B' : 0 ".toList)] ∧
      ¬List.Forall₂ (IsExport (assignments swallowingScript swallowingContext.ns)) (declared swallowingContext.symbols)
        (assignments (composeScript swallowingContext swallowingScript).text exportsName) := by
  refine ⟨⟨codes "demo.E = \x7b\n ".toList ++ [.literal '\'' "A".toList] ++ codes " : 0 ".toList ++
      [.lineComment " last".toList] ++ codes "\x7d;\ndemo.F = \x7b".toList ++ [.literal '\'' "B".toList] ++
      codes " : 0\x7d;\n\n".toList, by decide +kernel, by decide +kernel, by decide +kernel⟩, ?_, ?_, ?_, fun h => ?_⟩
  · decide +kernel
  · decide +kernel
  · decide +kernel
  · have hlen : (declared swallowingContext.symbols).length ≠
        (assignments (composeScript swallowingContext swallowingScript).text exportsName).length := by decide +kernel
    exact hlen h.length_eq

end ThriftModules.Module
