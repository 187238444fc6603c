import ThriftModules.Proofs.Module.Foreign
import ThriftModules.Proofs.Script.Cut
import ThriftModules.Proofs.Script.Position
import ThriftModules.Proofs.Script.Sequence

/-!
# Scripts joined by line feeds

* `EndsClosed` : a script that ends outside brackets, literals and block comments, with a semicolon before its last
  spacing;
* `marksFrom_line_feed_append` : behind such a script and a line feed, the marker starts afresh;
* `EndsClosed.run` : what follows such a script is scanned as if it stood alone (`texts_line_feed`);
* `composeScript_join` : the assignments of joined scripts, and their module.
-/

namespace ThriftModules.Script

set_option autoImplicit false

/-! ## The end of a script -/

def Mark.isSpacing (m : Mark) : Bool := m.role == .comment || (m.role == .code && Text.isAsciiBlank m.char)

/-- A script that ends at depth zero and outside literals and block comments, and whose last character that is neither
an ASCII blank nor part of a comment, if it has one, is a semicolon. -/
structure EndsClosed (script : Text) : Prop where
  outside : stateAfter .code script = .code ∨ stateAfter .code script = .lineComment
  depth : depthAfter 0 (marks script) = 0
  last : ∀ m ∈ ((marks script).filter fun m => !m.isSpacing).getLast?, m = ⟨';', .code⟩

instance (script : Text) : Decidable (EndsClosed script) :=
  decidable_of_iff
    ((stateAfter .code script = .code ∨ stateAfter .code script = .lineComment) ∧ depthAfter 0 (marks script) = 0 ∧
      ∀ m ∈ ((marks script).filter fun m : Mark => !m.isSpacing).getLast?, m = ⟨';', .code⟩)
    ⟨fun h => ⟨h.1, h.2.1, h.2.2⟩, fun h => ⟨h.outside, h.depth, h.last⟩⟩

/-! ## Marks -/

/-- Outside literals and block comments, a line feed is code and what follows it is marked as a script of its own. -/
theorem marksFrom_line_feed_append {state : MarkState} {t : Text} (hstate : state ≠ .literal '\\')
    (h : stateAfter state t = .code ∨ stateAfter state t = .lineComment) (u : Text) :
    marksFrom state (t ++ '\n' :: u) = marksFrom state t ++ ⟨'\n', .code⟩ :: marks u := by
  rw [marksFrom_append_of_stateAfter hstate h fun _ => rfl]
  obtain h | h := h <;> simp [h, marksFrom, marks, Text.isQuote, Text.backtick]

/-! ## The scan -/

namespace Scanner

theorem run_marks_spacing (s : Scanner) {ms : List Mark} (h : ∀ m ∈ ms, m.isSpacing = true) (rest : List Mark) :
    s.run (ms ++ rest) = (s.passed (ms.map Mark.char)).run rest := by
  induction ms generalizing s with
  | nil => rw [List.map_nil, passed_nil, List.nil_append]
  | cons m ms ih =>
    have hm : s.run (m :: (ms ++ rest)) = (s.passed [m.char]).run (ms ++ rest) := by
      obtain ⟨c, role⟩ := m
      have hspacing := h ⟨c, role⟩ (by simp)
      cases role with
      | code => exact run_blank s (by simpa [Mark.isSpacing] using hspacing) _
      | literal => simp [Mark.isSpacing] at hspacing
      | comment => exact run_comment s [c] _
    rw [List.cons_append, hm, ih _ fun x hx => h x (by simp [hx]), ← passed_append]
    rfl

/-- At depth zero a semicolon ends what stands in front of it, whatever follows. -/
theorem exists_run_semicolon {s : Scanner} {before : List Mark} (h : depthAfter s.depth before = 0) :
    ∃ read offset, ∀ rest, s.run (before ++ ⟨';', .code⟩ :: rest) = read ++ (⟨offset, 0, none⟩ : Scanner).run rest := by
  induction before generalizing s with
  | nil => exact ⟨s.pending, s.offset + 1, run_semicolon h⟩
  | cons m before ih =>
    let next := s.step m (before ++ [⟨';', .code⟩])
    have hdepth : depthAfter next.2.depth before = 0 := by rwa [step_depth]
    obtain ⟨read, offset, hrun⟩ := ih hdepth
    refine ⟨next.1 ++ read, offset, fun rest => ?_⟩
    have hstep : s.step m (before ++ ⟨';', .code⟩ :: rest) = next := by
      refine step_congr ?_ s m
      have hmem : ';' ∈ before.map Mark.char ++ [';'] := by simp
      simpa using endsBlock_append hmem (by decide) (by decide) (rest.map Mark.char) []
    rw [List.cons_append, run, hstep, hrun, List.append_assoc]

end Scanner

/-! ## Behind a closed script -/

section
variable {t : Text}

theorem depthAfter_spacing {ms : List Mark} (h : ∀ m ∈ ms, m.isSpacing = true) (d : Nat) : depthAfter d ms = d := by
  induction ms with
  | nil => rfl
  | cons m ms ih =>
    have hm : m.depth d = d := by
      have hspacing := h m (by simp)
      simp only [Mark.isSpacing, Bool.or_eq_true, Bool.and_eq_true, beq_iff_eq] at hspacing
      rcases hspacing with hcomment | ⟨-, hblank⟩
      · simp [Mark.depth, hcomment]
      · have hno := Scanner.not_bracket_of_isAsciiBlank hblank
        simp [Mark.depth, hno.1, hno.2.1]
    rw [depthAfter, List.foldl_cons, hm]
    exact ih fun x hx => h x (by simp [hx])

/-- A closed script is spacing, or has a semicolon at depth zero with spacing behind it. -/
theorem EndsClosed.marks_cases (h : EndsClosed t) :
    (∀ m ∈ marks t, m.isSpacing = true) ∨
      ∃ before after, marks t = before ++ ⟨';', .code⟩ :: after ∧ depthAfter 0 before = 0 ∧
        ∀ m ∈ after, m.isSpacing = true := by
  have hspacing : ∀ {ms : List Mark}, ms.filter (fun m => !m.isSpacing) = [] → ∀ m ∈ ms, m.isSpacing = true :=
    fun hnil m hm => by simpa using List.filter_eq_nil_iff.1 hnil m hm
  cases hlast : ((marks t).filter fun m => !m.isSpacing).getLast? with
  | none => exact .inl (hspacing (List.getLast?_eq_none_iff.1 hlast))
  | some m =>
    obtain rfl : m = ⟨';', .code⟩ := h.last m hlast
    obtain ⟨front, hfilter⟩ := List.getLast?_eq_some_iff.1 hlast
    obtain ⟨ms, ms', hmarks, -, hback⟩ := List.filter_eq_append_iff.1 hfilter
    obtain ⟨between, after, rfl, hbetween, -, hafter⟩ := List.filter_eq_cons_iff.1 hback
    refine .inr ⟨ms ++ between, after, by rw [hmarks, List.append_assoc], ?_, hspacing hafter⟩
    have hdepth := h.depth
    rw [hmarks, ← List.append_assoc, depthAfter, List.foldl_append, List.foldl_cons] at hdepth
    exact (depthAfter_spacing (hspacing hafter) _).symm.trans hdepth

/-- What follows a closed script is scanned as where no statement is open. -/
theorem EndsClosed.run (h : EndsClosed t) (rest : List Mark) :
    ∃ offset, Scanner.start.run (marks t ++ rest) = spans t ++ (⟨offset, 0, none⟩ : Scanner).run rest := by
  rcases h.marks_cases with hspacing | ⟨before, after, hmarks, hdepth, hafter⟩
  · refine ⟨0 + Text.byteLength ((marks t).map Mark.char), ?_⟩
    have hnone : spans t = [] := by
      have hrun := Scanner.start.run_marks_spacing hspacing []
      rw [List.append_nil] at hrun
      rw [spans, hrun]
      rfl
    rw [Scanner.run_marks_spacing _ hspacing, hnone]
    rfl
  · obtain ⟨read, offset, hrun⟩ := Scanner.exists_run_semicolon (s := Scanner.start) hdepth
    refine ⟨offset + Text.byteLength (after.map Mark.char), ?_⟩
    have hread : spans t = read := by
      have hend := Scanner.run_marks_spacing ⟨offset, 0, none⟩ hafter []
      rw [List.append_nil] at hend
      rw [spans, hmarks, hrun, hend]
      exact List.append_nil read
    rw [hmarks, List.append_assoc, List.cons_append, hrun, Scanner.run_marks_spacing _ hafter, hread]
    rfl

/-- The statements of a script behind a closed one and a line feed are those of the two in turn. -/
theorem EndsClosed.texts_line_feed (h : EndsClosed t) (u : Text) :
    (spans (t ++ '\n' :: u)).map Span.text = (spans t).map Span.text ++ (spans u).map Span.text := by
  obtain ⟨offset, hrun⟩ := h.run (⟨'\n', .code⟩ :: marks u)
  have hfresh : ∀ k, ((⟨k, 0, none⟩ : Scanner).run (marks u)).map Span.text = (spans u).map Span.text := by
    intro k
    rw [← Nat.zero_add k, Scanner.run_none_add, List.map_map]
    rfl
  rw [spans, marks, marksFrom_line_feed_append (by simp) h.outside u]
  rw [marks] at hrun
  rw [hrun, Scanner.run_blank _ (by decide), List.map_append]
  exact congrArg (_ ++ ·) (hfresh _)

theorem EndsClosed.assignments_line_feed (h : EndsClosed t) (u : Text) (ns : Namespace) :
    assignments (t ++ '\n' :: u) ns = assignments t ns ++ assignments u ns := by
  simp only [assignments_eq_filterMap, h.texts_line_feed, List.filterMap_append]

end

end ThriftModules.Script

namespace ThriftModules.Module

open Script (EndsClosed assignments)

/-- Scripts that each end closed, joined by line feeds, make the assignments of each in turn, whatever the namespace;
their module is the module of those assignments. -/
theorem composeScript_join {scripts : List Text} (h : ∀ script ∈ scripts, EndsClosed script) :
    (∀ ns, assignments (Text.join ['\n'] scripts) ns = scripts.flatMap (assignments · ns)) ∧
      ∀ ctx, composeScript ctx (Text.join ['\n'] scripts) = moduleOf ctx (scripts.flatMap (assignments · ctx.ns)) := by
  have hjoin : ∀ ns, assignments (Text.join ['\n'] scripts) ns = scripts.flatMap (assignments · ns) := by
    intro ns
    induction scripts with
    | nil => rfl
    | cons t scripts ih =>
      cases scripts with
      | nil => simp [Text.join]
      | cons u us =>
        have htail := ih fun script hscript => h script (List.mem_cons_of_mem t hscript)
        have hcons : Text.join ['\n'] (t :: u :: us) = t ++ '\n' :: Text.join ['\n'] (u :: us) := by
          simp [Text.join, List.intercalate]
        rw [hcons, (h t (by simp)).assignments_line_feed, htail]
        rfl
  exact ⟨hjoin, fun ctx => by rw [composeScript_eq, hjoin]⟩

/-- A script that ends in a line comment, one without code, and one that starts with a bracket. -/
theorem composeScript_join_three :
    let scripts := ["demo.A = \x7b'x' : \"\x7d;\"\x7d; // \x7d".toList, "/* no code */\n// here".toList,
      "(function() \x7b return '('; \x7d)();\ndemo.B = function() \x7b\x7d ; /* \x7d */".toList]
    (∀ script ∈ scripts, EndsClosed script) ∧
      assignments (Text.join ['\n'] scripts) "demo".toList = scripts.flatMap (assignments · "demo".toList) ∧
      (assignments (Text.join ['\n'] scripts) "demo".toList).map Script.Assignment.target = [['A'], ['B']] := by
  intro scripts
  have hclosed : ∀ script ∈ scripts, EndsClosed script := by decide +kernel
  exact ⟨hclosed, (composeScript_join hclosed).1 "demo".toList, by decide +kernel⟩

end ThriftModules.Module
