import ThriftModules.Script.Assignment
import ThriftModules.Proofs.Script.Scan
import ThriftModules.Proofs.Text.Trim

/-!
# Scripts that are printed from assignments

A printed script assigns to members of its namespace, one statement after the other, with blanks and comments in
between. Reading it gives the assignments back.

* `IsBalanced`, `IsUnbroken`, `IsSpacing` : texts in which literals and comments are closed and brackets balance, such
  texts in which nothing can end a statement, and texts of blanks and comments;
* `IsStatement`, `Scanner.run_statement` : pieces that are one statement when a semicolon follows them;
* `Written`, `Member` : the right-hand side of an assignment as written, and an assignment;
* `printed` : the script of given members;
* `statements_printed`, `assignments_printed` : its statements and its assignments.
-/

namespace ThriftModules.Script

set_option autoImplicit false

/-! ## Texts -/

/-- Literals and comments are closed, and brackets balance. -/
def IsBalanced (t : Text) : Prop := ∃ ps, texts ps = t ∧ reads ps [] = true ∧ depthAfter? 0 ps = some 0

/-- Literals and comments are closed, brackets balance, and outside them there is no semicolon and no brace closes. -/
def IsUnbroken (t : Text) : Prop := ∃ ps, texts ps = t ∧ reads ps [] = true ∧ depthInside? 0 ps = some 0

/-- ASCII blanks and closed comments. -/
def IsSpacing (t : Text) : Prop := ∃ ps, texts ps = t ∧ reads ps [] = true ∧ ps.all Piece.isSpacing = true

/-! ## One statement -/

/-- Characters that can start a statement without opening a bracket. -/
def isPlain (c : Char) : Bool := !isOpening c && !isClosing c && c != ';' && !Text.isAsciiBlank c

/-- Pieces that are one statement when a semicolon follows: a plain character first, and nothing that can end the
statement but a brace at its end. -/
def IsStatement : List Piece → Prop
  | .code c :: ps =>
    isPlain c = true ∧ (depthInside? 0 ps = some 0 ∨ ∃ qs, ps = qs ++ [.code '}'] ∧ depthInside? 0 qs = some 1)
  | _ => False

namespace Scanner

theorem run_plain {s : Scanner} {c : Char} (hc : isPlain c = true) (rest : List Mark) :
    s.run (⟨c, .code⟩ :: rest) = (s.started.passed [c]).run rest := by
  simp only [isPlain, Bool.and_eq_true, Bool.not_eq_true', bne_iff_ne] at hc
  obtain ⟨⟨⟨ho, hcl⟩, hs⟩, hb⟩ := hc
  have hstep : s.stepCode c rest = ([], s.started.passed [c]) := by
    simp [stepCode, ho, hcl, hs, hb, some_extended, passed, started, Text.byteLength]
  rw [run, step, hstep]
  rfl

theorem pending_started_passed {s : Scanner} (hn : s.current = none) (t : Text) :
    (s.started.passed t).pending = [⟨s.offset, t⟩] := by
  simp [pending, passed, started, hn, OpenStatement.span]

theorem run_statement {s : Scanner} {ps : List Piece} (hps : IsStatement ps) (h0 : s.depth = 0) (hn : s.current = none)
    (rest : List Mark) :
    ∃ offset, s.run (ps.flatMap Piece.marks ++ ⟨';', .code⟩ :: rest) =
      ⟨s.offset, texts ps⟩ :: (⟨offset, 0, none⟩ : Scanner).run rest := by
  obtain - | ⟨p, ps⟩ := ps
  · exact hps.elim
  cases p with
  | literal _ _ => exact hps.elim
  | lineComment _ => exact hps.elim
  | blockComment _ => exact hps.elim
  | code c =>
    obtain ⟨hc, hend⟩ := hps
    have hone : (s.started.passed [c]).current.isSome = true := by simp [started]
    have hzero : (s.started.passed [c]).depth = 0 := h0
    -- both ways lead to the open statement at depth zero
    have hread : s.run ((.code c :: ps).flatMap Piece.marks ++ ⟨';', .code⟩ :: rest) =
        (s.started.passed (texts (.code c :: ps))).run (⟨';', .code⟩ :: rest) := by
      have hfirst : (Piece.code c :: ps).flatMap Piece.marks ++ ⟨';', .code⟩ :: rest =
          ⟨c, .code⟩ :: (ps.flatMap Piece.marks ++ ⟨';', .code⟩ :: rest) := rfl
      rw [hfirst, run_plain hc, texts_cons, passed_append]
      rcases hend with hin | ⟨qs, rfl, hin⟩
      · rw [run_inside (d := 0) (by rw [hzero]; exact hin) hone, depth_eta hzero]
        rfl
      · rw [List.flatMap_append, List.append_assoc, run_inside (d := 1) (by rw [hzero]; exact hin) hone, texts_append,
          passed_append]
        refine (run_brace_semicolon rfl rest).trans ?_
        have hdepth : ({ ({ s.started.passed [c] with depth := 1 } : Scanner).passed (texts qs) with depth := 0 } :
            Scanner) = ({ s.started.passed [c] with depth := 0 } : Scanner).passed (texts qs) := rfl
        rw [hdepth, depth_eta hzero]
        rfl
    rw [hread, run_semicolon (by exact h0), pending_started_passed hn]
    exact ⟨_, rfl⟩

end Scanner

/-! ## Members -/

/-- The right-hand side of an assignment as written. -/
inductive Written where
  /-- A function, by what stands between its parentheses and between its braces. -/
  | function (params body : Text)
  /-- An object, by what stands between its braces. -/
  | object (body : Text)
  /-- Another expression. -/
  | expression (text : Text)
deriving DecidableEq, Repr

namespace Written

def text : Written → Text
  | function params body => "function(".toList ++ params ++ ") \x7b".toList ++ body ++ ['}']
  | object body => '{' :: (body ++ ['}'])
  | expression text => text

theorem text_function (params body : Text) :
    (function params body).text = "function(".toList ++ params ++ ") \x7b".toList ++ body ++ ['}'] := rfl

theorem text_object (body : Text) : (object body).text = '{' :: (body ++ ['}']) := rfl

theorem text_expression (t : Text) : (expression t).text = t := rfl

def value : Written → Value
  | function params body => .function ('(' :: (params ++ ") \x7b".toList ++ body ++ ['}']))
  | object body => .object body
  | expression text => .other text

/-- What can stand on a right-hand side. -/
def IsWellFormed : Written → Prop
  | function params body => IsBalanced params ∧ IsBalanced body
  | object body => IsBalanced body
  | expression text =>
    IsUnbroken text ∧ text ≠ [] ∧ Text.trim text = text ∧ text.head? ≠ some '{' ∧
      ∀ rest, text = "function".toList ++ rest → rest.head?.any Text.isIdentChar = true

/-- What a right-hand side must be for its class to be read from its ends. -/
def IsLegible : Written → Prop
  | expression text =>
    Text.trim text = text ∧ text.head? ≠ some '{' ∧
      ∀ rest, text = "function".toList ++ rest → rest.head?.any Text.isIdentChar = true
  | _ => True

theorem IsWellFormed.isLegible {w : Written} (h : w.IsWellFormed) : w.IsLegible := by
  cases w with
  | function params body => trivial
  | object body => trivial
  | expression text => exact h.2.2

end Written

/-- An assignment to a member of the namespace. -/
structure Member where
  /-- The path of the member below the namespace. -/
  target : Text
  /-- The right-hand side. -/
  written : Written
deriving DecidableEq, Repr

namespace Member

structure IsPath (target : Text) : Prop where
  nonempty : target ≠ []
  chars : ∀ c ∈ target, Text.isIdentChar c = true ∨ c = '.'
  head : target.head? ≠ some '.'
  last : target.getLast? ≠ some '.'

/-- The path is a word of identifier characters and dots with no dot at its ends. -/
structure IsWellFormed (m : Member) : Prop where
  nonempty : m.target ≠ []
  chars : ∀ c ∈ m.target, Text.isIdentChar c = true ∨ c = '.'
  head : m.target.head? ≠ some '.'
  last : m.target.getLast? ≠ some '.'
  written : m.written.IsWellFormed

theorem IsWellFormed.isPath {m : Member} (h : m.IsWellFormed) : IsPath m.target := ⟨h.nonempty, h.chars, h.head, h.last⟩

def unqualified (m : Member) : Text := m.target ++ " = ".toList ++ m.written.text

def statement (ns : Namespace) (m : Member) : Text := ns ++ '.' :: m.unqualified

def assignment (ns : Namespace) (m : Member) : Assignment := ⟨m.target, m.unqualified, m.statement ns, m.written.value⟩

end Member

/-- The script of members, each with what stands behind its semicolon. -/
def printed (ns : Namespace) (ms : List (Member × Text)) : Text :=
  ms.flatMap fun m => m.1.statement ns ++ ';' :: m.2

/-! ## The statements of a printed script -/

theorem isPlain_of_isTargetChar {c : Char} (h : Assignment.isTargetChar c = true) :
    isPlain c = true ∧ Text.isQuote c = false ∧ c ≠ '/' := by
  have hne : ∀ d, Assignment.isTargetChar d = false → c ≠ d := by
    rintro d hd rfl
    rw [h] at hd
    cases hd
  simp only [isPlain, isOpening, isClosing, Text.isAsciiBlank, Text.isQuote, Bool.and_eq_true, Bool.not_eq_true',
    Bool.or_eq_false_iff, bne_iff_ne, beq_eq_false_iff_ne]
  refine ⟨⟨⟨⟨⟨⟨?_, ?_⟩, ?_⟩, ⟨?_, ?_⟩, ?_⟩, ?_⟩, ⟨⟨⟨?_, ?_⟩, ?_⟩, ?_⟩, ?_⟩, ⟨⟨?_, ?_⟩, ?_⟩, ?_⟩ <;>
    exact hne _ (by decide)

theorem isBlank_of_isTargetChar {c : Char} (h : Assignment.isTargetChar c = true) : Text.isBlank c = false := by
  rcases Bool.or_eq_true_iff.1 h with h | h
  · exact Text.isBlank_of_isIdentChar h
  · rw [beq_iff_eq] at h
    subst h
    decide

theorem isTargetChar_of_isNamespaceChar {c : Char} (h : Idl.isNamespaceChar c = true) :
    Assignment.isTargetChar c = true := by
  simp only [Idl.isNamespaceChar, Assignment.isTargetChar, Text.isIdentChar, Bool.or_eq_true] at h ⊢
  exact h.imp_left Or.inl

theorem reads_codes_of_isTargetChar {t : Text} (h : ∀ c ∈ t, Assignment.isTargetChar c = true) (rest : Text) :
    reads (codes t) rest = true :=
  reads_codes (fun c hc => (isPlain_of_isTargetChar (h c hc)).2) rest

theorem depthInside?_codes_of_isTargetChar {t : Text} (h : ∀ c ∈ t, Assignment.isTargetChar c = true) (d : Nat) :
    depthInside? d (codes t) = some d := by
  refine depthInside?_codes (fun c hc => ?_) d
  have hp := (isPlain_of_isTargetChar (h c hc)).1
  simp only [isPlain, Bool.and_eq_true, Bool.not_eq_true', bne_iff_ne] at hp
  exact ⟨hp.1.1.1, hp.1.1.2, hp.1.2⟩

/-- The right-hand side as pieces: nothing in it ends the statement but a brace at its end. -/
theorem exists_pieces_of_written {w : Written} (h : w.IsWellFormed) :
    ∃ ps, texts ps = w.text ∧ reads ps [] = true ∧
      (depthInside? 0 ps = some 0 ∨ ∃ qs, ps = qs ++ [.code '}'] ∧ depthInside? 0 qs = some 1) := by
  cases w with
  | function params body =>
    obtain ⟨⟨pp, rfl, hpr, hpd⟩, ⟨bp, rfl, hbr, hbd⟩⟩ := h
    have hparams : depthInside? 1 pp = some 1 := depthInside?_of_balanced hpd 0
    have hbody : depthInside? 1 bp = some 1 := depthInside?_of_balanced hbd 0
    have hopen : depthInside? 0 (codes "function(".toList) = some 1 := by decide
    have hmid : depthInside? 1 (codes ") \x7b".toList) = some 1 := by decide
    have hopenReads : ∀ rest, reads (codes "function(".toList) rest = true := reads_codes (by decide)
    have hmidReads : ∀ rest, reads (codes ") \x7b".toList) rest = true := reads_codes (by decide)
    have hmidOpens : ∀ ps rest, opensComment (texts (codes ") \x7b".toList ++ ps) ++ rest) = false := by
      intro ps rest
      rw [texts_append, texts_codes]
      rfl
    have htext : (Written.function (texts pp) (texts bp)).text =
        texts (codes "function(".toList) ++ texts pp ++ texts (codes ") \x7b".toList) ++ texts bp ++ ['}'] := by
      rw [texts_codes, texts_codes]
      rfl
    rw [htext]
    -- the literal texts are closed: unfolding them would unfold the depth with them
    generalize codes "function(".toList = opening at *
    generalize codes ") \x7b".toList = middle at *
    refine ⟨opening ++ pp ++ middle ++ bp ++ [.code '}'], ?_, ?_, Or.inr ⟨opening ++ pp ++ middle ++ bp, rfl, ?_⟩⟩
    · simp [Piece.text]
    · simp only [reads_append, List.append_assoc]
      refine ⟨hopenReads _, reads_of_reads_nil hpr (hmidOpens _ _), hmidReads _, reads_of_reads_nil hbr (by decide),
        by decide⟩
    · exact depthInside?_append (depthInside?_append (depthInside?_append hopen hparams) hmid) hbody
  | object body =>
    obtain ⟨bp, rfl, hbr, hbd⟩ := h
    have hbody : depthInside? 1 bp = some 1 := depthInside?_of_balanced hbd 0
    have hopen : depthInside? 0 [.code '{'] = some 1 := by decide
    have hopenReads : ∀ rest, reads [.code '{'] rest = true := reads_codes (t := ['{']) (by decide)
    refine ⟨[.code '{'] ++ bp ++ [.code '}'], ?_, ?_, Or.inr ⟨[.code '{'] ++ bp, rfl, ?_⟩⟩
    · rw [texts_append, texts_append]
      rfl
    · rw [List.append_assoc, reads_append, reads_append]
      exact ⟨hopenReads _, reads_of_reads_nil hbr (by decide), by decide⟩
    · exact depthInside?_append hopen hbody
  | expression text =>
    obtain ⟨⟨ps, hps, hr, hd⟩, -⟩ := h
    exact ⟨ps, hps, hr, Or.inl hd⟩

theorem exists_pieces_of_statement {ns : Namespace} (hns : ns ≠ []) (hchars : ∀ c ∈ ns, Idl.isNamespaceChar c = true)
    {m : Member} (hm : m.IsWellFormed) :
    ∃ ps, texts ps = m.statement ns ∧ reads ps [] = true ∧ IsStatement ps := by
  obtain ⟨vs, hv, hvr, hvd⟩ := exists_pieces_of_written hm.written
  have hpath : ∀ c ∈ ns ++ '.' :: m.target, Assignment.isTargetChar c = true := by
    intro c hc
    rcases List.mem_append.1 hc with hc | hc
    · exact isTargetChar_of_isNamespaceChar (hchars c hc)
    · rcases List.mem_cons.1 hc with rfl | hc
      · decide
      · rw [Assignment.isTargetChar, Bool.or_eq_true, beq_iff_eq]
        exact hm.chars c hc
  obtain - | ⟨c, ns⟩ := ns
  · exact absurd rfl hns
  have htail : ∀ x ∈ ns ++ '.' :: m.target, Assignment.isTargetChar x = true := fun x hx => hpath x (by simp [hx])
  have hpathDepth : depthInside? 0 (codes (ns ++ '.' :: m.target) ++ codes " = ".toList) = some 0 :=
    depthInside?_append (depthInside?_codes_of_isTargetChar htail 0) (by decide)
  refine ⟨.code c :: (codes (ns ++ '.' :: m.target) ++ codes " = ".toList) ++ vs, ?_, ?_,
    (isPlain_of_isTargetChar (hpath c (by simp))).1, ?_⟩
  · simp [hv, Piece.text, Member.statement, Member.unqualified]
  · have hfirst : reads (codes (c :: (ns ++ '.' :: m.target))) (texts (codes " = ".toList ++ vs)) = true :=
      reads_codes_of_isTargetChar hpath _
    have hequals : reads (codes " = ".toList) (texts vs ++ []) = true := reads_codes (by decide) _
    have hall := reads_append.2 ⟨by simpa using hfirst, reads_append.2 ⟨hequals, hvr⟩⟩
    simpa [codes] using hall
  · rcases hvd with hin | ⟨qs, rfl, hin⟩
    · exact Or.inl (depthInside?_append hpathDepth hin)
    · exact Or.inr ⟨_, (List.append_assoc _ _ _).symm, depthInside?_append hpathDepth hin⟩

theorem opensComment_printed {ns : Namespace} (hns : ns ≠ []) (hchars : ∀ c ∈ ns, Idl.isNamespaceChar c = true)
    (ms : List (Member × Text)) : opensComment (printed ns ms) = false := by
  cases ms with
  | nil => rfl
  | cons m ms =>
    obtain - | ⟨c, ns⟩ := ns
    · exact absurd rfl hns
    have hc : Idl.isNamespaceChar c = true := hchars c (by simp)
    have hslash : c ≠ '/' := by rintro rfl; exact absurd hc (by decide)
    have hstar : c ≠ '*' := by rintro rfl; exact absurd hc (by decide)
    simp [printed, Member.statement, opensComment, hslash, hstar]

/-- The scanner completes one statement for each member. -/
theorem run_printed {ns : Namespace} (hns : ns ≠ []) (hchars : ∀ c ∈ ns, Idl.isNamespaceChar c = true)
    {ms : List (Member × Text)} (hms : ∀ m ∈ ms, m.1.IsWellFormed ∧ IsSpacing m.2) {s : Scanner} (h0 : s.depth = 0)
    (hn : s.current = none) :
    (s.run (marksFrom .code (printed ns ms))).map Span.text = ms.map (·.1.statement ns) := by
  induction ms generalizing s with
  | nil => simp [printed, marksFrom, Scanner.run, Scanner.pending, hn]
  | cons m ms ih =>
    obtain ⟨hm, hgap⟩ := hms m (by simp)
    obtain ⟨ps, hps, hpr, hstatement⟩ := exists_pieces_of_statement hns hchars hm
    obtain ⟨gs, hgs, hgr, hspace⟩ := hgap
    have htext : printed ns (m :: ms) = texts (ps ++ .code ';' :: gs) ++ printed ns ms := by
      simp [printed, hps, hgs, Piece.text]
    have hopens := opensComment_printed hns hchars ms
    have hreads : reads (ps ++ .code ';' :: gs) (printed ns ms) = true := by
      refine reads_append.2 ⟨reads_of_reads_nil hpr rfl, reads_cons.2 ⟨rfl, ?_, reads_of_reads_nil hgr hopens⟩⟩
      intro e
      cases e
    have hmarks : (ps ++ Piece.code ';' :: gs).flatMap Piece.marks ++ marksFrom .code (printed ns ms) =
        ps.flatMap Piece.marks ++ ⟨';', .code⟩ :: (gs.flatMap Piece.marks ++ marksFrom .code (printed ns ms)) := by
      simp [Piece.marks]
    obtain ⟨offset, hrun⟩ := Scanner.run_statement hstatement h0 hn
      (gs.flatMap Piece.marks ++ marksFrom .code (printed ns ms))
    rw [htext, marksFrom_texts hreads, hmarks, hrun, Scanner.run_spacing hspace rfl, List.map_cons, List.map_cons, hps,
      ih (fun m hm => hms m (by simp [hm])) rfl rfl]

theorem exists_getLast?_of_written {w : Written} (h : w.IsWellFormed) :
    ∃ c, w.text.getLast? = some c ∧ Text.isBlank c = false := by
  cases w with
  | function params body => exact ⟨'}', List.getLast?_concat, by decide⟩
  | object body => exact ⟨'}', List.getLast?_concat (l := '{' :: body), by decide⟩
  | expression text =>
    obtain ⟨-, hne, htrim, -⟩ := h
    have hlast := List.getLast?_eq_some_getLast hne
    exact ⟨_, hlast, Text.isBlank_of_trim_eq_self htrim (Or.inr hlast)⟩

theorem trim_statement {ns : Namespace} (hns : ns ≠ []) (hchars : ∀ c ∈ ns, Idl.isNamespaceChar c = true) {m : Member}
    (hm : m.IsWellFormed) : Text.trim (m.statement ns) = m.statement ns := by
  obtain ⟨d, hd, hblank⟩ := exists_getLast?_of_written hm.written
  have hlast : (m.statement ns).getLast? = some d := by
    rw [Member.statement, Member.unqualified, ← List.cons_append, ← List.append_assoc, List.getLast?_append, hd]
    rfl
  refine Text.trim_eq_self (fun c hc => ?_) (fun c hc => ?_)
  · obtain - | ⟨d, ns⟩ := ns
    · exact absurd rfl hns
    cases hc
    exact isBlank_of_isTargetChar (isTargetChar_of_isNamespaceChar (hchars c (by simp)))
  · rw [hlast] at hc
    cases hc
    exact hblank

/-- The statements of a printed script are those it is printed from. -/
theorem statements_printed {ns : Namespace} (hns : ns ≠ []) (hchars : ∀ c ∈ ns, Idl.isNamespaceChar c = true)
    {lead : Text} (hlead : IsSpacing lead) {ms : List (Member × Text)}
    (hms : ∀ m ∈ ms, m.1.IsWellFormed ∧ IsSpacing m.2) :
    statements (lead ++ printed ns ms) = ms.map (·.1.statement ns) := by
  obtain ⟨ps, rfl, hr, hspace⟩ := hlead
  have hreads := reads_of_reads_nil hr (opensComment_printed hns hchars ms)
  have hspans : (spans (texts ps ++ printed ns ms)).map Span.text = ms.map (·.1.statement ns) := by
    rw [spans, marks, marksFrom_texts hreads, Scanner.run_spacing hspace rfl]
    exact run_printed hns hchars hms rfl rfl
  have htrim : (spans (texts ps ++ printed ns ms)).map (Text.trim ·.text) = ms.map (·.1.statement ns) := by
    have hmap := congrArg (List.map Text.trim) hspans
    rw [List.map_map, List.map_map] at hmap
    refine hmap.trans ?_
    exact List.map_congr_left fun m hm => trim_statement hns hchars (hms m hm).1
  rw [statements, htrim, List.filter_eq_self]
  intro t ht
  obtain ⟨m, -, rfl⟩ := List.mem_map.1 ht
  simp [Member.statement]

/-! ## The assignments of a printed script -/

theorem stripStart?_append (p r : Text) : Text.stripStart? p (p ++ r) = some r := Text.stripStart?_eq_some_iff.2 rfl

theorem functionRest?_function (rest : Text) :
    functionRest? ("function".toList ++ '(' :: rest) = some ('(' :: rest) := by
  have htrim : Text.trimStart ('(' :: rest) = '(' :: rest := Text.trimStart_eq_self fun c hc => by cases hc; decide
  have hident : (('(' :: rest).head?.any Text.isIdentChar) = false := (by decide : Text.isIdentChar '(' = false)
  rw [functionRest?, stripStart?_append]
  simp only [hident, htrim]
  rfl

theorem functionRest?_eq_none {t : Text}
    (h : ∀ rest, t = "function".toList ++ rest → rest.head?.any Text.isIdentChar = true) : functionRest? t = none := by
  rw [functionRest?]
  split
  · next rest hrest => rw [if_pos (h rest (Text.stripStart?_eq_some_iff.1 hrest))]
  · rfl

theorem classify_text {w : Written} (h : w.IsLegible) : Value.classify w.text = w.value := by
  cases w with
  | function params body =>
    have htext : (Written.function params body).text =
        "function".toList ++ '(' :: (params ++ ") \x7b".toList ++ body ++ ['}']) := by
      have hopen : "function(".toList = "function".toList ++ ['('] := rfl
      rw [Written.text_function, hopen]
      simp only [List.append_assoc, List.cons_append, List.nil_append]
    rw [Value.classify, htext, functionRest?_function]
    rfl
  | object body =>
    have hrest : functionRest? (Written.object body).text = none := rfl
    have hbody : objectBody? (Written.object body).text = some body := by
      rw [Written.text_object, objectBody?, List.getLast?_concat, if_pos rfl, List.dropLast_concat]
    rw [Value.classify, hrest, hbody]
    rfl
  | expression text =>
    obtain ⟨-, hbrace, hfunction⟩ := h
    have hbody : objectBody? text = none := by
      rw [objectBody?]
      rintro rest rfl
      exact hbrace rfl
    rw [Value.classify, Written.text_expression, functionRest?_eq_none hfunction, hbody]
    rfl

theorem takeWhile_path {t : Text} (h : ∀ c ∈ t, Assignment.isTargetChar c = true) (rest : Text) :
    (t ++ ' ' :: rest).takeWhile Assignment.isTargetChar = t := by
  rw [List.takeWhile_append_of_pos h, List.takeWhile_cons_of_neg (by decide), List.append_nil]

theorem dropWhile_path {t : Text} (h : ∀ c ∈ t, Assignment.isTargetChar c = true) (rest : Text) :
    (t ++ ' ' :: rest).dropWhile Assignment.isTargetChar = ' ' :: rest := by
  rw [List.dropWhile_append_of_pos h, List.dropWhile_cons_of_neg (by decide)]

theorem trimStart_text {w : Written} (h : w.IsLegible) : Text.trimStart w.text = w.text := by
  apply Text.trimStart_eq_self
  intro c hc
  cases w with
  | function params body =>
    cases hc
    decide
  | object body =>
    cases hc
    decide
  | expression text => exact Text.isBlank_of_trim_eq_self h.1 (Or.inl hc)

theorem rightHandSide?_equals {e : Text} (h : Text.trimStart e = e) :
    Assignment.rightHandSide? (" = ".toList ++ e) = some e := by
  have hblank : Text.trimStart (' ' :: e) = Text.trimStart e := List.dropWhile_cons_of_pos (by decide)
  have hequals : Text.trimStart (" = ".toList ++ e) = '=' :: ' ' :: e := rfl
  rw [Assignment.rightHandSide?, hequals]
  simp only [List.head?_cons, Option.any_some, hblank, h]
  rfl

/-- A path below the namespace, an equals sign and what is assigned. -/
theorem parse?_path {ns : Namespace} {target e : Text} (ht : Member.IsPath target) (he : Text.trimStart e = e) :
    Assignment.parse? ns (ns ++ '.' :: (target ++ " = ".toList ++ e)) =
      some ⟨target, target ++ " = ".toList ++ e, ns ++ '.' :: (target ++ " = ".toList ++ e), .classify e⟩ := by
  have hpath : ∀ c ∈ target, Assignment.isTargetChar c = true := by
    intro c hc
    rw [Assignment.isTargetChar, Bool.or_eq_true, beq_iff_eq]
    exact ht.chars c hc
  have hmember : Assignment.isMemberPath target = true := by
    simp [Assignment.isMemberPath, ht.nonempty, ht.head, ht.last]
  have hstrip : Text.stripStart? (ns ++ ['.']) (ns ++ '.' :: (target ++ " = ".toList ++ e)) =
      some (target ++ " = ".toList ++ e) := by
    have happ : ns ++ '.' :: (target ++ " = ".toList ++ e) = (ns ++ ['.']) ++ (target ++ " = ".toList ++ e) := by simp
    rw [happ, stripStart?_append]
  have hword : (target ++ " = ".toList ++ e).takeWhile Assignment.isTargetChar = target := by
    rw [List.append_assoc]
    exact takeWhile_path hpath _
  have hrest : (target ++ " = ".toList ++ e).dropWhile Assignment.isTargetChar = " = ".toList ++ e := by
    rw [List.append_assoc]
    exact dropWhile_path hpath _
  rw [Assignment.parse?, hstrip]
  simp only [Option.bind_eq_bind, Option.bind_some, hword, hrest, hmember, rightHandSide?_equals he]
  rfl

theorem parse?_statement {ns : Namespace} {m : Member} (hm : Member.IsPath m.target) (hw : m.written.IsLegible) :
    Assignment.parse? ns (m.statement ns) = some (m.assignment ns) := by
  rw [Member.statement, Member.unqualified, parse?_path hm (trimStart_text hw), classify_text hw]
  rfl

/-- Scanning a printed script gives back the members it is printed from. -/
theorem assignments_printed {ns : Namespace} (hns : ns ≠ []) (hchars : ∀ c ∈ ns, Idl.isNamespaceChar c = true)
    {lead : Text} (hlead : IsSpacing lead) {ms : List (Member × Text)}
    (hms : ∀ m ∈ ms, m.1.IsWellFormed ∧ IsSpacing m.2) :
    assignments (lead ++ printed ns ms) ns = ms.map (·.1.assignment ns) := by
  rw [assignments, statements_printed hns hchars hlead hms]
  have hparse : ∀ m ∈ ms, Assignment.parse? ns (m.1.statement ns) = some (m.1.assignment ns) :=
    fun m hm => parse?_statement (hms m hm).1.isPath (hms m hm).1.written.isLegible
  clear hms
  induction ms with
  | nil => rfl
  | cons m ms ih =>
    rw [List.map_cons, List.map_cons, List.filterMap_cons_some (hparse m (by simp)),
      ih fun m hm => hparse m (by simp [hm])]

/-- Terminators, brackets and quotes inside bodies, literals and comments cut no assignment. -/
theorem assignments_printed_nested :
    assignments ("// \x7b\nn.P = function(x /* ) */) \x7bif (x) \x7by = \"\x7d;\";\x7d; // don't\n\x7d; ".toList ++
        "n.K = \x7b'A;' : [1]\x7d;/* ' */n.P.v = f('\\'', g(\x7b\x7d));\n".toList) "n".toList =
      [⟨"P".toList, "P = function(x /* ) */) \x7bif (x) \x7by = \"\x7d;\";\x7d; // don't\n\x7d".toList,
          "n.P = function(x /* ) */) \x7bif (x) \x7by = \"\x7d;\";\x7d; // don't\n\x7d".toList,
          .function "(x /* ) */) \x7bif (x) \x7by = \"\x7d;\";\x7d; // don't\n\x7d".toList⟩,
        ⟨"K".toList, "K = \x7b'A;' : [1]\x7d".toList, "n.K = \x7b'A;' : [1]\x7d".toList, .object "'A;' : [1]".toList⟩,
        ⟨"P.v".toList, "P.v = f('\\'', g(\x7b\x7d))".toList, "n.P.v = f('\\'', g(\x7b\x7d))".toList,
          .other "f('\\'', g(\x7b\x7d))".toList⟩] := by
  have hparams : IsBalanced "x /* ) */".toList := ⟨codes "x ".toList ++ [.blockComment " ) ".toList], rfl, rfl, rfl⟩
  have hbody : IsBalanced "if (x) \x7by = \"\x7d;\";\x7d; // don't\n".toList :=
    ⟨codes "if (x) \x7by = ".toList ++ [.literal '"' "\x7d;".toList] ++ codes ";\x7d; ".toList ++
      [.lineComment " don't".toList], rfl, rfl, rfl⟩
  have hobject : IsBalanced "'A;' : [1]".toList := ⟨.literal '\'' "A;".toList :: codes " : [1]".toList, rfl, rfl, rfl⟩
  have hcall : IsUnbroken "f('\\'', g(\x7b\x7d))".toList :=
    ⟨codes "f(".toList ++ [.literal '\'' "\\'".toList] ++ codes ", g(\x7b\x7d))".toList, rfl, rfl, rfl⟩
  have hlead : IsSpacing "// \x7b\n".toList := ⟨[.lineComment " \x7b".toList], rfl, rfl, rfl⟩
  let ms : List (Member × Text) := [
    (⟨"P".toList, .function "x /* ) */".toList "if (x) \x7by = \"\x7d;\";\x7d; // don't\n".toList⟩, " ".toList),
    (⟨"K".toList, .object "'A;' : [1]".toList⟩, "/* ' */".toList),
    (⟨"P.v".toList, .expression "f('\\'', g(\x7b\x7d))".toList⟩, "\n".toList)]
  have hms : ∀ m ∈ ms, m.1.IsWellFormed ∧ IsSpacing m.2 := by
    intro m hm
    simp only [ms, List.mem_cons, List.not_mem_nil, or_false] at hm
    rcases hm with rfl | rfl | rfl
    · exact ⟨⟨by decide, by decide, by decide, by decide, hparams, hbody⟩, ⟨[.code ' '], rfl, rfl, rfl⟩⟩
    · exact ⟨⟨by decide, by decide, by decide, by decide, hobject⟩, ⟨[.blockComment " ' ".toList], rfl, rfl, rfl⟩⟩
    · refine ⟨⟨by decide, by decide, by decide, by decide, hcall, by decide, by decide, by decide, fun _ h => ?_⟩,
        ⟨[.code '\n'], rfl, rfl, rfl⟩⟩
      cases h
  have hns : "n".toList ≠ [] := by decide
  have hscript := assignments_printed hns (by decide) hlead hms
  exact (congrArg (assignments · "n".toList) (by decide +kernel)).trans (hscript.trans (by decide +kernel))

end ThriftModules.Script
