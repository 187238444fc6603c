import ThriftModules.Idl.Symbols
import ThriftModules.Proofs.Idl.Literals
import ThriftModules.Proofs.Text.Found

/-!
# What a source includes

* `mem_includedNames_iff` : a line includes the names that stand as `"name.thrift"` behind the keyword and a gap;
* `Place`, `Scanned` : where the scanner stands between two kept characters, and what it leaves from there on
  (`scanned_scanLine`);
* `IncludesInCode`, `IncludesInLiteral` : the same words outside literals, and with the keyword inside a literal;
* `mem_includes_iff` : a source includes what its code includes, and what its literals quote;
* `includes_eq_code_iff` : so it includes what its code includes exactly if no literal quotes another include.

Includes are read off the lines with their literals, since the file name is a literal itself. A literal that quotes an
include is read like one.
-/

namespace ThriftModules.Idl

set_option autoImplicit false

open Text (IsWord IsGap)

/-! ## Includes of a line -/

section
variable {t name line : Text}

theorem includeTarget?_eq_some_iff :
    includeTarget? t = some name ↔ IsWord name ∧ ∃ rest, t = '"' :: (name ++ (".thrift\"".toList ++ rest)) := by
  constructor
  · fun_cases includeTarget? t with
    | case1 quoted word hname =>
      intro h
      obtain rfl := Option.some.inj h
      obtain ⟨rest, hrest⟩ := Text.startsWith_iff.1 hname.2
      refine ⟨⟨hname.1, fun c hc => List.mem_takeWhile_imp hc⟩, rest, ?_⟩
      have hquoted : quoted = word ++ quoted.dropWhile Text.isWordChar := List.takeWhile_append_dropWhile.symm
      rw [hrest, ← hquoted]
    | case2 => intro h; cases h
    | case3 => intro h; cases h
  · rintro ⟨hword, rest, rfl⟩
    have hstop : ∀ c, (".thrift\"".toList ++ rest).head? = some c → Text.isWordChar c = false := fun c hc => by
      cases hc
      decide
    obtain ⟨htake, hdrop⟩ := hword.takeWord_append hstop
    have hthrift : Text.startsWith (".thrift\"".toList ++ rest) ".thrift\"".toList = true :=
      Text.startsWith_iff.2 (List.prefix_append _ _)
    simp only [includeTarget?, htake, hdrop, hthrift, and_true]
    exact if_pos hword.1

/-- A line includes the names that stand behind the keyword and a gap, each as a literal with the name of its file. -/
theorem mem_includedNames_iff :
    name ∈ includedNames line ↔
      IsWord name ∧ ∃ front gap rest, front.getLast?.any Text.isWordChar = false ∧ IsGap gap ∧
        line = front ++ ("include".toList ++ (gap ++ '"' :: (name ++ (".thrift\"".toList ++ rest)))) := by
  have htail : ∀ {tail}, tail ∈ Text.keywordTails "include".toList line ↔
      ∃ front gap, line = front ++ ("include".toList ++ (gap ++ tail)) ∧
        front.getLast?.any Text.isWordChar = false ∧ IsGap gap ∧ Text.trimStart tail = tail :=
    Text.mem_keywordTails_iff (by decide) (by decide)
  rw [includedNames, List.mem_filterMap]
  constructor
  · rintro ⟨tail, hmem, htarget⟩
    obtain ⟨front, gap, rfl, hfront, hgap, -⟩ := htail.1 hmem
    obtain ⟨hword, rest, rfl⟩ := includeTarget?_eq_some_iff.1 htarget
    exact ⟨hword, front, gap, rest, hfront, hgap, rfl⟩
  · rintro ⟨hword, front, gap, rest, hfront, hgap, rfl⟩
    exact ⟨_, htail.2 ⟨front, gap, rfl, hfront, hgap, rfl⟩, includeTarget?_eq_some_iff.2 ⟨hword, rest, rfl⟩⟩

end

/-! ## What the scanner leaves from a place on -/

/-- Where the scanner stands between two kept characters of a line. -/
inductive Place where
  | code
  /-- Inside a literal that closes at `quote`. -/
  | literal (quote : Char)
  /-- Behind a backslash in such a literal. -/
  | escape (quote : Char)
deriving DecidableEq, Repr

def LineState.place : LineState → Place
  | .literal quote => .literal quote
  | _ => .code

/-- Cells as the scanner leaves them from a place on. -/
inductive Scanned : Place → List Cell → Prop where
  | nil {place : Place} : Scanned place []
  | code {c : Char} {cells : List Cell} (noQuote : isLiteralQuote c = false) (rest : Scanned .code cells) :
    Scanned .code (.plain c :: cells)
  | opens {quote : Char} {cells : List Cell} (isQuote : isLiteralQuote quote = true)
    (rest : Scanned (.literal quote) cells) : Scanned .code (.plain quote :: cells)
  | hides {quote c : Char} {cells : List Cell} (ne : c ≠ quote) (noEscape : c ≠ '\\')
    (rest : Scanned (.literal quote) cells) : Scanned (.literal quote) (.hidden c :: cells)
  | escapes {quote : Char} {cells : List Cell} (rest : Scanned (.escape quote) cells) :
    Scanned (.literal quote) (.hidden '\\' :: cells)
  | escaped {quote c : Char} {cells : List Cell} (rest : Scanned (.literal quote) cells) :
    Scanned (.escape quote) (.hidden c :: cells)
  | closes {quote : Char} {cells : List Cell} (isQuote : isLiteralQuote quote = true) (rest : Scanned .code cells) :
    Scanned (.literal quote) (.plain quote :: cells)

/-- A state that a scan comes to: the quote of a literal is one that opens it. -/
def LineState.IsProper (state : LineState) : Prop := ∀ quote, state = .literal quote → isLiteralQuote quote = true

theorem scanned_scanLine {state : LineState} (h : state.IsProper) (line : Text) :
    Scanned state.place (scanLine state line).cells := by
  have hcode : LineState.code.IsProper := fun quote he => by cases he
  have hcomment : LineState.comment.IsProper := fun quote he => by cases he
  fun_induction scanLine state line with
  | case1 r ih => exact .code (by decide) (ih hcode)
  | case2 c r hc ih => exact ih hcomment
  | case3 r => exact .nil
  | case4 r => exact .nil
  | case5 r ih => exact ih hcomment
  | case6 c r hhash hslash hstar ih =>
    by_cases hquote : isLiteralQuote c = true
    · rw [if_pos hquote] at ih ⊢
      exact .opens hquote (ih fun quote he => by cases he; exact hquote)
    · rw [if_neg hquote] at ih ⊢
      exact .code (Bool.eq_false_iff.2 hquote) (ih hcode)
  | case7 quote c r ih => exact .escapes (.escaped (ih h))
  | case8 quote r hescape ih => exact .closes (h quote rfl) (ih hcode)
  | case9 quote c r hescape hne ih =>
    by_cases hback : c = '\\'
    · cases r with
      | nil =>
        rw [hback]
        exact .escapes .nil
      | cons d r => exact absurd rfl (fun he => hescape d r hback he)
    · exact .hides hne hback (ih h)
  | case10 => exact .nil
  | case11 => exact .nil
  | case12 quote => exact .nil

section
variable {place : Place} {cells front tail : List Cell} {quote : Char} {w r : Text}

/-- What is left behind some cells is left from the place that they lead to. -/
theorem Scanned.exists_place (h : Scanned place (front ++ tail)) : ∃ place', Scanned place' tail := by
  induction front generalizing place with
  | nil => exact ⟨place, h⟩
  | cons cell front ih =>
    cases h with
    | code _ rest => exact ih rest
    | opens _ rest => exact ih rest
    | hides _ _ rest => exact ih rest
    | escapes rest => exact ih rest
    | escaped rest => exact ih rest
    | closes _ rest => exact ih rest

/-- A text without quotes that code starts with stands outside literals. -/
theorem Scanned.exists_plain (h : Scanned .code cells) (hcode : codeOf cells = w ++ r)
    (hw : ∀ c ∈ w, isLiteralQuote c = false) :
    ∃ tail, cells = w.map .plain ++ tail ∧ codeOf tail = r ∧ Scanned .code tail := by
  induction w generalizing cells with
  | nil => exact ⟨cells, rfl, hcode, h⟩
  | cons c w ih =>
    obtain ⟨hc, hrestw⟩ := List.forall_mem_cons.1 hw
    cases h with
    | nil => cases hcode
    | code _ rest =>
      obtain ⟨rfl, hrest⟩ := List.cons.inj hcode
      obtain ⟨tail, rfl, htail, hscanned⟩ := ih rest hrest hrestw
      exact ⟨tail, rfl, htail, hscanned⟩
    | opens isQuote rest =>
      obtain ⟨rfl, -⟩ := List.cons.inj hcode
      cases isQuote.symm.trans hc

/-- A text without the quote and without backslashes that stands in a literal first stands there as a whole. -/
theorem Scanned.exists_hidden (h : Scanned (.literal quote) cells) (hcode : codeOf cells = w ++ r)
    (hw : ∀ c ∈ w, (isLiteralQuote c = true → c ≠ quote) ∧ c ≠ '\\') :
    ∃ tail, cells = w.map .hidden ++ tail ∧ codeOf tail = r ∧ Scanned (.literal quote) tail := by
  induction w generalizing cells with
  | nil => exact ⟨cells, rfl, hcode, h⟩
  | cons c w ih =>
    obtain ⟨⟨hc, hback⟩, hrestw⟩ := List.forall_mem_cons.1 hw
    cases h with
    | nil => cases hcode
    | hides _ _ rest =>
      obtain ⟨rfl, hrest⟩ := List.cons.inj hcode
      obtain ⟨tail, rfl, htail, hscanned⟩ := ih rest hrest hrestw
      exact ⟨tail, rfl, htail, hscanned⟩
    | escapes rest => exact absurd (List.cons.inj hcode).1.symm hback
    | closes isQuote rest =>
      obtain ⟨rfl, -⟩ := List.cons.inj hcode
      exact absurd rfl (hc isQuote)

theorem isLiteralQuote_of_isWordChar {c : Char} (h : Text.isWordChar c = true) : isLiteralQuote c = false := by
  rw [← Bool.not_eq_true]
  intro hquote
  cases h.symm.trans (not_isWordChar_of_isLiteralQuote hquote)

theorem ne_backslash_of_isWordChar {c : Char} (h : Text.isWordChar c = true) : c ≠ '\\' := by
  rintro rfl
  revert h
  decide

theorem Scanned.exists_word (h : Scanned place cells) (hcode : codeOf cells = w ++ r) (hword : IsWord w) :
    (∃ tail, cells = w.map .plain ++ tail ∧ codeOf tail = r ∧ Scanned .code tail) ∨
      ∃ tail, cells = w.map .hidden ++ tail ∧ codeOf tail = r := by
  have hhidden : ∀ c ∈ w, ∀ quote, (isLiteralQuote c = true → c ≠ quote) ∧ c ≠ '\\' := by
    refine fun c hc quote => ⟨fun hquote => ?_, ne_backslash_of_isWordChar (hword.2 c hc)⟩
    cases hquote.symm.trans (isLiteralQuote_of_isWordChar (hword.2 c hc))
  cases place with
  | code => exact .inl (h.exists_plain hcode fun c hc => isLiteralQuote_of_isWordChar (hword.2 c hc))
  | literal quote =>
    obtain ⟨tail, htail, hr, -⟩ := h.exists_hidden hcode fun c hc => hhidden c hc quote
    exact .inr ⟨tail, htail, hr⟩
  | escape quote =>
    obtain ⟨c, w, rfl⟩ := List.exists_cons_of_ne_nil hword.1
    cases h with
    | nil => cases hcode
    | escaped rest =>
      obtain ⟨rfl, hrest⟩ := List.cons.inj hcode
      obtain ⟨tail, rfl, hr, -⟩ := rest.exists_hidden hrest fun d hd => hhidden d (List.mem_cons_of_mem _ hd) quote
      exact .inr ⟨tail, rfl, hr⟩

end

/-! ## Includes in code and in literals -/

def literalCells (t : Text) : List Cell := .plain '"' :: (t.map .hidden ++ [.plain '"'])

/-- Outside literals the line has the keyword, which no word character precedes, blanks behind it, and then the literal
that names the file of `name`. -/
def IncludesInCode (cells : List Cell) (name : Text) : Prop :=
  IsWord name ∧ ∃ front gap rest, (codeOf front).getLast?.any Text.isWordChar = false ∧ IsGap gap ∧
    cells = front ++ ("include".toList.map .plain ++
      (gap.map .plain ++ (literalCells (name ++ ".thrift".toList) ++ rest)))

/-- Inside a literal the line has the keyword, which no word character precedes, and goes on as it would behind an
include of `name`. -/
def IncludesInLiteral (cells : List Cell) (name : Text) : Prop :=
  IsWord name ∧ ∃ front tail gap rest, (codeOf front).getLast?.any Text.isWordChar = false ∧ IsGap gap ∧
    cells = front ++ ("include".toList.map .hidden ++ tail) ∧
    codeOf tail = gap ++ '"' :: (name ++ (".thrift\"".toList ++ rest))

section
variable {place : Place} {cells : List Cell} {name : Text}

theorem codeOf_literalCells (t : Text) : codeOf (literalCells t) = '"' :: (t ++ ['"']) := by
  have hbody : codeOf (t.map .hidden ++ [.plain '"']) = t ++ ['"'] := by
    rw [codeOf_append, codeOf_hidden]
    rfl
  exact congrArg ('"' :: ·) hbody

theorem IncludesInCode.mem_includedNames (h : IncludesInCode cells name) : name ∈ includedNames (codeOf cells) := by
  obtain ⟨hword, front, gap, rest, hfront, hgap, rfl⟩ := h
  refine mem_includedNames_iff.2 ⟨hword, codeOf front, gap, codeOf rest, hfront, hgap, ?_⟩
  simp only [codeOf_append, codeOf_plain, codeOf_literalCells]
  simp

theorem IncludesInLiteral.mem_includedNames (h : IncludesInLiteral cells name) :
    name ∈ includedNames (codeOf cells) := by
  obtain ⟨hword, front, tail, gap, rest, hfront, hgap, rfl, htail⟩ := h
  refine mem_includedNames_iff.2 ⟨hword, codeOf front, gap, rest, hfront, hgap, ?_⟩
  rw [codeOf_append, codeOf_append, codeOf_hidden, htail]

/-- A text between double quotes that code starts with is a literal. -/
theorem Scanned.exists_literal {t r : Text} (h : Scanned .code cells) (hcode : codeOf cells = '"' :: (t ++ '"' :: r))
    (ht : ∀ c ∈ t, c ≠ '"' ∧ c ≠ '\\') : ∃ rest, cells = literalCells t ++ rest := by
  cases h with
  | nil => cases hcode
  | @code c cells noQuote _ =>
    have hc : c = '"' := (List.cons.inj hcode).1
    rw [hc] at noQuote
    cases noQuote
  | @opens quote cells _ hliteral =>
    obtain rfl : quote = '"' := (List.cons.inj hcode).1
    obtain ⟨cells, rfl, hcells, hend⟩ :=
      hliteral.exists_hidden (List.cons.inj hcode).2 fun c hc => ⟨fun _ => (ht c hc).1, (ht c hc).2⟩
    cases hend with
    | nil => cases hcells
    | hides ne _ _ => exact absurd (List.cons.inj hcells).1 ne
    | escapes _ => cases hcells
    | @closes _ cells _ _ => exact ⟨cells, by simp [literalCells]⟩

/-- A scanned line includes what its code includes and what its literals quote. -/
theorem Scanned.mem_includedNames_iff (h : Scanned place cells) :
    name ∈ includedNames (codeOf cells) ↔ IncludesInCode cells name ∨ IncludesInLiteral cells name := by
  refine ⟨fun hmem => ?_, fun hor => hor.elim (·.mem_includedNames) (·.mem_includedNames)⟩
  obtain ⟨hword, front, gap, rest, hfront, hgap, hline⟩ := Idl.mem_includedNames_iff.1 hmem
  obtain ⟨before, behind, rfl, rfl, hbehind⟩ := List.map_eq_append_iff.1 hline
  obtain ⟨place', hscanned⟩ := h.exists_place
  rcases hscanned.exists_word hbehind (by decide) with ⟨tail, rfl, htail, hcode⟩ | ⟨tail, rfl, htail⟩
  · -- the keyword stands outside literals, so the quote behind the gap opens one
    have hgap' : ∀ c ∈ gap, isLiteralQuote c = false := by
      intro c hc
      rw [← Bool.not_eq_true]
      intro hquote
      cases (hgap.2 c hc).symm.trans (not_isBlank_of_isLiteralQuote hquote)
    have hfile : ∀ c ∈ name ++ ".thrift".toList, c ≠ '"' ∧ c ≠ '\\' := by
      intro c hc
      rcases List.mem_append.1 hc with hc | hc
      · exact ⟨by rintro rfl; exact absurd (hword.2 _ hc) (by decide), ne_backslash_of_isWordChar (hword.2 c hc)⟩
      · have hextension : ∀ c ∈ ".thrift".toList, c ≠ '"' ∧ c ≠ '\\' := by decide
        exact hextension c hc
    have hsplit : '"' :: (name ++ (".thrift\"".toList ++ rest)) =
        '"' :: ((name ++ ".thrift".toList) ++ '"' :: rest) := by
      simp
    obtain ⟨cells, rfl, hcells, hquote⟩ := hcode.exists_plain htail hgap'
    obtain ⟨behind, rfl⟩ := hquote.exists_literal (hcells.trans hsplit) hfile
    exact .inl ⟨hword, before, gap, behind, hfront, hgap, rfl⟩
  · exact .inr ⟨hword, before, tail, gap, rest, hfront, hgap, rfl, htail⟩

/-! ## Includes of a source -/

theorem scanned_of_mem_scanLines {inComment : Bool} {lines : List Text} {cells : List Cell}
    (h : cells ∈ scanLines inComment lines) : Scanned .code cells := by
  induction lines generalizing inComment with
  | nil => cases h
  | cons line lines ih =>
    rcases List.mem_cons.1 h with rfl | h
    · have hcode : LineState.code.IsProper := fun quote he => by cases he
      have hcomment : LineState.comment.IsProper := fun quote he => by cases he
      cases inComment with
      | false => exact scanned_scanLine hcode line
      | true => exact scanned_scanLine hcomment line
    · exact ih h

/-- A source includes what its code includes and what its literals quote. -/
theorem mem_includes_iff (path text : Text) :
    name ∈ (Source.ofText path text).includes ↔
      (∃ cells ∈ (Source.ofText path text).cells, IncludesInCode cells name) ∨
        ∃ cells ∈ (Source.ofText path text).cells, IncludesInLiteral cells name := by
  have hlines : name ∈ (Source.ofText path text).includes ↔
      ∃ cells ∈ (Source.ofText path text).cells, name ∈ includedNames (codeOf cells) := by
    rw [Source.includes, NameSet.mem_ofList, Source.codeLines, List.flatMap_map, List.mem_flatMap]
  rw [hlines, ← exists_or]
  refine exists_congr fun cells => ?_
  rw [← and_or_left]
  exact and_congr_right fun hcells => (scanned_of_mem_scanLines hcells).mem_includedNames_iff

theorem IncludesInCode.infix_bareOf (h : IncludesInCode cells name) : "include".toList <:+: bareOf cells := by
  obtain ⟨-, front, gap, rest, -, -, rfl⟩ := h
  refine ⟨bareOf front, bareOf (gap.map .plain ++ (literalCells (name ++ ".thrift".toList) ++ rest)), ?_⟩
  simp only [bareOf, List.map_append, List.append_assoc]
  rfl

end

/-- A source includes the names that its code includes, and those that its literals quote; these are no others exactly
if its code includes each name that a literal quotes. -/
theorem includes_eq_code_iff (path text : Text) :
    let s := Source.ofText path text
    (∀ name, name ∈ s.includes ↔
      (∃ cells ∈ s.cells, IncludesInCode cells name) ∨ ∃ cells ∈ s.cells, IncludesInLiteral cells name) ∧
    ((∀ name, name ∈ s.includes ↔ ∃ cells ∈ s.cells, IncludesInCode cells name) ↔
      ∀ name, (∃ cells ∈ s.cells, IncludesInLiteral cells name) → ∃ cells ∈ s.cells, IncludesInCode cells name) := by
  intro s
  have hmem : ∀ name, name ∈ s.includes ↔
      (∃ cells ∈ s.cells, IncludesInCode cells name) ∨ ∃ cells ∈ s.cells, IncludesInLiteral cells name :=
    fun name => mem_includes_iff path text
  refine ⟨hmem, forall_congr' fun name => ?_⟩
  rw [hmem name, or_iff_left_iff_imp]

/-- A literal that quotes an include, and one that ends right before the name of a file. -/
theorem literal_includes :
    let quoting := Source.ofText [] "const string x = 'include \"common.thrift\"'".toList
    let ending := Source.ofText [] "const string x = \"include \"common.thrift\"".toList
    quoting.includes.toList = ["common".toList] ∧ (∀ cells ∈ quoting.cells, ¬IncludesInCode cells "common".toList) ∧
      ending.includes.toList = ["common".toList] ∧ ∀ cells ∈ ending.cells, ¬IncludesInCode cells "common".toList := by
  intro quoting ending
  have hquoting : ∀ cells ∈ quoting.cells, ¬"include".toList <:+: bareOf cells := by decide +kernel
  have hending : ∀ cells ∈ ending.cells, ¬"include".toList <:+: bareOf cells := by decide +kernel
  exact ⟨by decide +kernel, fun cells hcells h => hquoting cells hcells h.infix_bareOf, by decide +kernel,
    fun cells hcells h => hending cells hcells h.infix_bareOf⟩

end ThriftModules.Idl
