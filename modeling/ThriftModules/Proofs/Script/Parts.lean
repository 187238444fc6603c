import Mathlib.Data.List.Basic
import ThriftModules.Proofs.Script.Excerpt

/-!
# The parts of assignments in a balanced script

* `statements_line_feed`, `isLine_of_mem_statements` : a line feed at the end of a script does not count, and each
  statement of a balanced script is balanced as well;
* `Assignment.exists_of_parse?` : what stands in front of the right-hand side of an assignment;
* `isLine_statement`, `isLine_unqualified`, `isLine_constructor` : the parts of an assignment that a module takes over;
* `TakesBrace` : whether a brace closes what stands in front of it; a body is whole (`IsWhole`), and takes a brace, or
  it ends in a comment (`EndsInComment`), and takes none (`isWhole_or_endsInComment`).
-/

namespace ThriftModules.Script

set_option autoImplicit false

/-! ## The statements of a line -/

theorem marksFrom_lineComment_open {body : Text} (h : body.any (· == '\n') = false) :
    marksFrom .lineComment body = body.map (⟨·, .comment⟩) := by
  induction body with
  | nil => rfl
  | cons c body ih =>
    rw [List.any_cons, Bool.or_eq_false_iff, beq_eq_false_iff_ne] at h
    rw [marksFrom, if_neg h.1, ih h.2]
    rfl

theorem marks_comment {us : List Piece} {x : Text} (hr : reads us ['/'] = true) (hx : x.any (· == '\n') = false) :
    marks (texts us ++ '/' :: '/' :: x) = us.flatMap Piece.marks ++ ('/' :: '/' :: x).map (⟨·, .comment⟩) := by
  rw [marks, marksFrom_texts ((reads_slash us _).trans hr), marksFrom, marksFrom_lineComment_open hx]
  rfl

theorem marks_line_feed {t : Text} (h : IsLine t) : marks (t ++ ['\n']) = marks t ++ [⟨'\n', .code⟩] := by
  obtain ⟨ps, hps, hr, -⟩ := h
  rcases exists_cut_of_tail hps hr (by decide) with ⟨us, rfl, rfl⟩ | ⟨us, x, y, r, rfl, rfl, -⟩
  · have hus := (reads_append.1 hr).1
    have hmarks : marks (texts us) = us.flatMap Piece.marks := by
      simpa [marks, marksFrom] using marksFrom_texts (reads_nil_of_reads hus)
    rw [hmarks, marks, marksFrom_texts (reads_of_reads_nil (reads_nil_of_reads hus) (by decide))]
    rfl
  · obtain ⟨hreads, hrest⟩ := reads_append.1 hr
    have hus : reads us ['/'] = true := (reads_slash us _).symm.trans hreads
    have hx := (reads_cons.1 hrest).1
    rw [Piece.isClosed, Bool.not_eq_true', List.any_append, Bool.or_eq_false_iff] at hx
    have hclosed : marksFrom .code ('/' :: '/' :: (x ++ ['\n'])) =
        ('/' :: '/' :: x).map (⟨·, .comment⟩) ++ [⟨'\n', .code⟩] := by
      rw [marksFrom, marksFrom_lineComment hx.1]
      rfl
    rw [marks_comment hus hx.1, List.append_assoc, List.append_assoc, List.cons_append, List.cons_append, marks,
      marksFrom_texts ((reads_slash us _).trans hus), hclosed]

theorem endsBlock_line_feed (t : Text) : endsBlock (t ++ ['\n']) = endsBlock t := by
  induction t with
  | nil => decide
  | cons c t ih =>
    cases hc : Text.isBlank c with
    | true => rw [List.cons_append, endsBlock_cons_blank hc, endsBlock_cons_blank hc, ih]
    | false =>
      have hstop : ∀ c ∈ ['\n'].head?, Text.isIdentChar c = false := by
        rintro c ⟨⟩
        decide
      rw [List.cons_append, endsBlock_cons hc, endsBlock_cons hc, ← List.cons_append, takeWhile_append_of_head hstop]

namespace Scanner

theorem step_congr {rest rest' : List Mark} (h : endsBlock (rest.map Mark.char) = endsBlock (rest'.map Mark.char))
    (s : Scanner) (m : Mark) : s.step m rest = s.step m rest' := by
  cases m with
  | mk c role =>
    cases role with
    | code => simp only [step, stepCode, h]
    | literal => rfl
    | comment => rfl

theorem run_line_feed (s : Scanner) (ms : List Mark) :
    (s.run (ms ++ [⟨'\n', .code⟩])).map (Text.trim ·.text) = (s.run ms).map (Text.trim ·.text) := by
  induction ms generalizing s with
  | nil =>
    cases s with
    | mk offset depth current =>
      cases current with
      | none => rfl
      | some o =>
        have hread : ('\n' :: o.read).reverse = o.read.reverse ++ ['\n'] := List.reverse_cons
        show [Text.trim ('\n' :: o.read).reverse] = [Text.trim o.read.reverse]
        rw [hread, Text.trim_append_blank (by decide)]
  | cons m ms ih =>
    have hrest : endsBlock ((ms ++ [(⟨'\n', .code⟩ : Mark)]).map Mark.char) = endsBlock (ms.map Mark.char) := by
      rw [List.map_append]
      exact endsBlock_line_feed _
    rw [List.cons_append, run, run, step_congr hrest, List.map_append, List.map_append, ih]

end Scanner

theorem statements_line_feed {t : Text} (h : IsLine t) : statements (t ++ ['\n']) = statements t := by
  rw [statements, statements, spans, spans, marks_line_feed h, Scanner.run_line_feed]

theorem exists_pieces_of_mem_statements {script t : Text} (h : IsLine script) (ht : t ∈ statements script) :
    ∃ a b qs, texts qs = a ++ (t ++ b) ∧ IsSpan qs ∧ (∀ c ∈ a, Text.isBlank c = true) ∧
      ∀ c ∈ b, Text.isBlank c = true := by
  rw [← statements_line_feed h] at ht
  obtain ⟨sp, hsp, rfl⟩ := List.mem_map.1 (List.mem_filter.1 ht).1
  obtain ⟨qs, hqs, hspan⟩ := isOfPieces_of_mem_spans h hsp
  obtain ⟨a, b, hab, ha, hb⟩ := Text.exists_trim sp.text
  exact ⟨a, b, qs, hqs.trans hab, hspan, ha, hb⟩

theorem isLine_of_mem_statements {script t : Text} (h : IsLine script) (ht : t ∈ statements script) : IsLine t := by
  obtain ⟨a, b, qs, hqs, hspan, ha, hb⟩ := exists_pieces_of_mem_statements h ht
  have hline : IsLine (a ++ t) := by
    rw [← List.append_assoc] at hqs
    exact isLine_of_cut hqs hspan.closed hspan.depthAfter? hb
  exact hline.of_append fun c hc => isQuiet_of_isBlank (ha c hc)

/-! ## The parts of an assignment -/

namespace Assignment

theorem exists_of_rightHandSide? {t e : Text} (h : rightHandSide? t = some e) :
    ∃ lead, t = lead ++ e ∧ ∀ c ∈ lead, isQuiet c = true := by
  rw [rightHandSide?] at h
  split at h
  · next rest hrest =>
    split at h
    · cases h
    · cases h
      obtain ⟨a, ha, hablank⟩ := Text.exists_trimStart t
      obtain ⟨b, hb, hbblank⟩ := Text.exists_trimStart rest
      refine ⟨a ++ '=' :: b, ?_, fun c hc => ?_⟩
      · rw [List.append_assoc, List.cons_append, ← hb, ← hrest, ← ha]
      · rcases List.mem_append.1 hc with hc | hc
        · exact isQuiet_of_isBlank (hablank c hc)
        · rcases List.mem_cons.1 hc with rfl | hc
          · decide
          · exact isQuiet_of_isBlank (hbblank c hc)
  · cases h

/-- What stands in front of the unqualified statement and in front of the right-hand side is quiet. -/
structure IsQuietUpTo (a : Assignment) (e : Text) : Prop where
  statement : ∃ lead, a.statement = lead ++ a.unqualified ∧ ∀ c ∈ lead, isQuiet c = true
  unqualified : ∃ lead, a.unqualified = lead ++ e ∧ ∀ c ∈ lead, isQuiet c = true

theorem exists_of_parse? {ns : Namespace} {t : Text} {a : Assignment} (hns : ∀ c ∈ ns, isQuiet c = true)
    (h : parse? ns t = some a) :
    a.statement = t ∧ isMemberPath a.target = true ∧ (∀ c ∈ a.target, isTargetChar c = true) ∧
      ∃ e, a.value = .classify e ∧ a.IsQuietUpTo e := by
  rw [parse?] at h
  obtain ⟨u, hu, h⟩ := Option.bind_eq_some_iff.1 h
  dsimp only at h
  split at h
  · next hpath =>
    obtain ⟨e, he, h⟩ := Option.bind_eq_some_iff.1 h
    cases h
    obtain ⟨lead, hlead, hquiet⟩ := exists_of_rightHandSide? he
    have htarget : ∀ c ∈ u.takeWhile isTargetChar, isTargetChar c = true := fun _ hc => List.mem_takeWhile_imp hc
    refine ⟨rfl, hpath, htarget, e, rfl, ⟨ns ++ ['.'], Text.stripStart?_eq_some_iff.1 hu, fun c hc => ?_⟩,
      u.takeWhile isTargetChar ++ lead, ?_, fun c hc => ?_⟩
    · rcases List.mem_append.1 hc with hc | hc
      · exact hns c hc
      · rw [List.mem_singleton.1 hc]
        decide
    · rw [List.append_assoc, ← hlead, List.takeWhile_append_dropWhile]
    · rcases List.mem_append.1 hc with hc | hc
      · exact isQuiet_of_isTargetChar (htarget c hc)
      · exact hquiet c hc
  · cases h

end Assignment

theorem eq_of_functionRest? {e rest : Text} (h : functionRest? e = some rest) :
    ∃ lead, e = lead ++ rest ∧ ∀ c ∈ lead, isQuiet c = true := by
  rw [functionRest?] at h
  split at h
  · next r hr =>
    split at h
    · cases h
    · cases h
      obtain ⟨b, hb, hblank⟩ := Text.exists_trimStart r
      refine ⟨"function".toList ++ b, ?_, fun c hc => ?_⟩
      · rw [Text.stripStart?_eq_some_iff.1 hr, List.append_assoc, ← hb]
      · rcases List.mem_append.1 hc with hc | hc
        · exact (by decide : ∀ c ∈ "function".toList, isQuiet c = true) c hc
        · exact isQuiet_of_isBlank (hblank c hc)
  · cases h

theorem eq_of_objectBody? {e body : Text} (h : objectBody? e = some body) : e = '{' :: (body ++ ['}']) := by
  rw [objectBody?.eq_def] at h
  split at h
  · next rest =>
    split at h
    · next hlast =>
      cases h
      rw [List.dropLast_append_getLast? _ hlast]
    · cases h
  · cases h

theorem functionRest?_of_classify {e rest : Text} (h : Value.classify e = .function rest) :
    functionRest? e = some rest := by
  rw [Value.classify] at h
  split at h
  · next rest' hrest =>
    cases h
    exact hrest
  · split at h <;> cases h

theorem eq_of_classify_object {e body : Text} (h : Value.classify e = .object body) : e = '{' :: (body ++ ['}']) := by
  rw [Value.classify] at h
  split at h
  · cases h
  · split at h
    · next body' hbody =>
      cases h
      exact eq_of_objectBody? hbody
    · cases h

/-! ## The assignments of a line -/

section
variable {ns : Namespace} {script : Text} {a : Assignment}

theorem exists_of_mem_assignments (hns : ∀ c ∈ ns, Assignment.isTargetChar c = true) (ha : a ∈ assignments script ns) :
    a.statement ∈ statements script ∧ Assignment.isMemberPath a.target = true ∧
      (∀ c ∈ a.target, Assignment.isTargetChar c = true) ∧ ∃ e, a.value = .classify e ∧ a.IsQuietUpTo e := by
  obtain ⟨t, ht, hparse⟩ := List.mem_filterMap.1 ha
  obtain ⟨hstatement, hrest⟩ := Assignment.exists_of_parse? (fun c hc => isQuiet_of_isTargetChar (hns c hc)) hparse
  exact ⟨hstatement ▸ ht, hrest⟩

variable (hscript : IsLine script) (hns : ∀ c ∈ ns, Assignment.isTargetChar c = true) (ha : a ∈ assignments script ns)
include hscript hns ha

theorem isLine_statement : IsLine a.statement :=
  isLine_of_mem_statements hscript (exists_of_mem_assignments hns ha).1

theorem isLine_unqualified : IsLine a.unqualified := by
  obtain ⟨-, -, -, e, -, ⟨lead, hlead, hquiet⟩, -⟩ := exists_of_mem_assignments hns ha
  exact (hlead ▸ isLine_statement hscript hns ha).of_append hquiet

theorem isLine_constructor {rest : Text} (hv : a.value = .function rest) : IsLine rest := by
  obtain ⟨-, -, -, e, he, -, lead, hlead, hquiet⟩ := exists_of_mem_assignments hns ha
  have hexpression : IsLine e := (hlead ▸ isLine_unqualified hscript hns ha).of_append hquiet
  obtain ⟨word, hword, hquiet⟩ := eq_of_functionRest? (functionRest?_of_classify (he ▸ hv))
  exact (hword ▸ hexpression).of_append hquiet

end

/-! ## The body of an object -/

/-- A brace behind the trimmed body, with a space in between, is code: the body does not end in a comment that ends with
its line. -/
def TakesBrace (body : Text) : Prop := (marks (Text.trim body ++ " \x7d".toList)).getLast? = some ⟨'}', .code⟩

instance (body : Text) : Decidable (TakesBrace body) := inferInstanceAs (Decidable (_ = _))

/-- The trimmed body as pieces that stay inside the braces whatever follows. -/
def IsWhole (body : Text) : Prop :=
  ∃ us, texts us = Text.trim body ∧ reads us [] = true ∧ ∀ rest, within 1 us rest = some 1

/-- The trimmed body as pieces and a comment that ends with its line. -/
def EndsInComment (body : Text) : Prop :=
  ∃ us x d, Text.trim body = texts us ++ '/' :: '/' :: x ∧ x.any (· == '\n') = false ∧ reads us ['/'] = true ∧
    ∀ rest, within 1 us ('/' :: rest) = some d

theorem IsWhole.takesBrace {body : Text} (h : IsWhole body) : TakesBrace body := by
  obtain ⟨us, hus, hreads, -⟩ := h
  have hmarks : marks (texts us ++ [' ', '}']) = us.flatMap Piece.marks ++ [⟨' ', .code⟩, ⟨'}', .code⟩] :=
    marksFrom_texts (reads_of_reads_nil hreads rfl)
  rw [TakesBrace, ← hus]
  exact (congrArg List.getLast? hmarks).trans (List.getLast?_append_of_ne_nil _ (List.cons_ne_nil _ _))

theorem EndsInComment.not_takesBrace {body : Text} (h : EndsInComment body) : ¬TakesBrace body := by
  intro hbrace
  obtain ⟨us, x, d, hbody, hx, hr, -⟩ := h
  have hopen : (x ++ " \x7d".toList).any (· == '\n') = false := by
    rw [List.any_append, hx]
    rfl
  rw [TakesBrace, hbody, List.append_assoc, List.cons_append, List.cons_append, marks_comment hr hopen,
    List.getLast?_append_of_ne_nil _ (by simp), List.getLast?_map] at hbrace
  obtain ⟨c, -, hc⟩ := Option.map_eq_some_iff.1 hbrace
  cases hc

theorem eq_one_of_brace {d : Nat} {y b : Text} (hy : ∀ c ∈ y, isQuiet c = true) (hb : ∀ c ∈ b, isQuiet c = true)
    (h : depthAfter? d (codes (y ++ '}' :: b)) = some 0) : d = 1 := by
  rw [codes, List.map_append, ← codes, ← codes] at h
  obtain ⟨e, he, h⟩ := depthAfter?_append.1 h
  rw [depthAfter?_codes_of_isQuiet hy] at he
  cases he
  obtain ⟨f, hf, h⟩ := depthAfter?_cons.1 h
  rw [← codes, depthAfter?_codes_of_isQuiet hb] at h
  cases h
  cases d with
  | zero => cases hf
  | succ d =>
    cases hf
    rfl

/-- The body of an object that a statement assigns, by where the last brace of the statement stands. -/
theorem isWhole_or_endsInComment {qs : List Piece} {lead body b : Text}
    (h : texts qs = lead ++ '{' :: (body ++ '}' :: b)) (hs : IsSpan qs) (hlead : ∀ c ∈ lead, isQuiet c = true)
    (hb : ∀ c ∈ b, Text.isBlank c = true) : IsWhole body ∨ EndsInComment body := by
  obtain ⟨x, y, hbody, hx, hy⟩ := Text.exists_trim body
  have hquiet : ∀ {t : Text}, (∀ c ∈ t, Text.isBlank c = true) → ∀ c ∈ t, isQuiet c = true :=
    fun ht c hc => isQuiet_of_isBlank (ht c hc)
  have hfront : ∀ c ∈ lead ++ '{' :: x, Text.isQuote c = false ∧ c ≠ '/' := by
    intro c hc
    rcases List.mem_append.1 hc with hc | hc
    · exact (isQuiet_iff.1 (hlead c hc)).1
    · rcases List.mem_cons.1 hc with rfl | hc
      · decide
      · exact (isQuiet_iff.1 (hquiet hx c hc)).1
  have hback : ∀ c ∈ y ++ '}' :: b, isTail c = true := by
    intro c hc
    rw [isTail, Bool.or_eq_true, beq_iff_eq]
    rcases List.mem_append.1 hc with hc | hc
    · exact .inl (hy c hc)
    · exact (List.mem_cons.1 hc).symm.imp_left (hb c)
  have hall : texts qs = (lead ++ '{' :: x) ++ (Text.trim body ++ (y ++ '}' :: b)) :=
    calc texts qs = lead ++ '{' :: ((x ++ (Text.trim body ++ y)) ++ '}' :: b) := by rw [← hbody]; exact h
      _ = (lead ++ '{' :: x) ++ (Text.trim body ++ (y ++ '}' :: b)) := by simp
  obtain ⟨ps, rfl, hps⟩ := exists_codes_append hall hs.closed hfront
  have hopen : ∀ rest, within 0 (codes (lead ++ '{' :: x)) rest = some 1 := by
    have hbrace : depthInside? 0 [.code '{'] = some 1 := by decide
    have hblank := depthInside?_codes_of_isQuiet (hquiet hx) 1
    have hin := depthInside?_append (depthInside?_codes_of_isQuiet hlead 0) (depthInside?_append hbrace hblank)
    rw [codes, List.map_append]
    exact within_of_depthInside? hin
  have hinside : ∀ {us vs : List Piece}, IsSpan (codes (lead ++ '{' :: x) ++ (us ++ vs)) → vs ≠ [] →
      ∃ r d, within 1 us (texts vs ++ r) = some d ∧ depthAfter? d vs = some 0 := by
    intro us vs hspan hvs
    rw [← List.append_assoc] at hspan
    obtain ⟨r, d, hin, hd⟩ := hspan.within_front hvs
    obtain ⟨e, he, hus⟩ := within_append.1 hin
    rw [hopen] at he
    cases he
    exact ⟨r, d, hus, hd⟩
  obtain ⟨-, hread⟩ := reads_append.1 hs.closed
  rcases exists_cut_of_tail hps hread hback with ⟨us, rfl, hus⟩ | ⟨us, u, v, r, rfl, hus, -⟩
  · left
    obtain ⟨r, d, hin, hd⟩ := hinside hs (by simp [codes])
    cases eq_one_of_brace (hquiet hy) (hquiet hb) hd
    exact ⟨us, hus, reads_nil_of_reads (reads_append.1 hread).1, within_congr hin⟩
  · right
    obtain ⟨r', d, hin, -⟩ := hinside hs (List.cons_ne_nil _ _)
    obtain ⟨hreads, hrest⟩ := reads_append.1 hread
    have hcomment := (reads_cons.1 hrest).1
    rw [Piece.isClosed, Bool.not_eq_true', List.any_append, Bool.or_eq_false_iff] at hcomment
    exact ⟨us, u, d, hus, hcomment.1, (reads_slash us _).symm.trans hreads, within_slash hin⟩

/-- The body of an object that an assignment of the script assigns. -/
theorem isWhole_or_endsInComment_of_mem {ns : Namespace} {script : Text} {a : Assignment} {body : Text}
    (hscript : IsLine script) (hns : ∀ c ∈ ns, Assignment.isTargetChar c = true) (ha : a ∈ assignments script ns)
    (hv : a.value = .object body) : IsWhole body ∨ EndsInComment body := by
  obtain ⟨hmem, -, -, e, he, ⟨front, hfront, hquiet⟩, lead, hlead, hquiet'⟩ := exists_of_mem_assignments hns ha
  obtain ⟨x, y, qs, hqs, hspan, hx, hy⟩ := exists_pieces_of_mem_statements hscript hmem
  have hobject : e = '{' :: (body ++ ['}']) := eq_of_classify_object (he ▸ hv)
  have htext : texts qs = (x ++ (front ++ lead)) ++ '{' :: (body ++ '}' :: y) := by
    rw [hqs, hfront, hlead, hobject]
    simp
  refine isWhole_or_endsInComment htext hspan (fun c hc => ?_) hy
  rcases List.mem_append.1 hc with hc | hc
  · exact isQuiet_of_isBlank (hx c hc)
  · exact (List.mem_append.1 hc).elim (hquiet c) (hquiet' c)

end ThriftModules.Script
