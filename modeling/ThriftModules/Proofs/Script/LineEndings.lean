import ThriftModules.Proofs.Script.Transparent
import ThriftModules.Proofs.Text.LineEndings

/-!
# Line endings of a script

What becomes of the statements of a script when each line feed is given a carriage return.

* `brokenMarks`, `brokenStatements` : the reading in which a backslash keeps no line feed in a quoted literal;
* `Feeds` : the marks of a text without carriage returns and with them (`feeds_marksFrom`);
* `Scanner.Fed`, `Fed.run` : two scans that have read the same text up to its line endings;
* `statements_crlf` : the statements with carriage returns are those of that reading;
* `statements_crlf_iff` : line endings do not count exactly if that reading has the same statements.
-/

namespace ThriftModules.Script

set_option autoImplicit false

open Text (crlf)

/-! ## Broken literals -/

/-- The characters of a script that is entered in the given state, each with its role, where a literal that is not a
template literal is broken by every line feed, also behind a backslash. -/
def brokenFrom : MarkState → Text → List Mark
  | .code, '/' :: '/' :: r => ⟨'/', .comment⟩ :: ⟨'/', .comment⟩ :: brokenFrom .lineComment r
  | .code, '/' :: '*' :: r => ⟨'/', .comment⟩ :: ⟨'*', .comment⟩ :: brokenFrom .blockComment r
  | .code, c :: r =>
    if Text.isQuote c then ⟨c, .literal⟩ :: brokenFrom (.literal c) r else ⟨c, .code⟩ :: brokenFrom .code r
  | .lineComment, c :: r =>
    if c = '\n' then ⟨c, .code⟩ :: brokenFrom .code r else ⟨c, .comment⟩ :: brokenFrom .lineComment r
  | .blockComment, '*' :: '/' :: r => ⟨'*', .comment⟩ :: ⟨'/', .comment⟩ :: brokenFrom .code r
  | .blockComment, c :: r => ⟨c, .comment⟩ :: brokenFrom .blockComment r
  | .literal quote, '\\' :: c :: r =>
    if c = '\n' ∧ quote ≠ Text.backtick then ⟨'\\', .literal⟩ :: ⟨c, .code⟩ :: brokenFrom .code r
    else ⟨'\\', .literal⟩ :: ⟨c, .literal⟩ :: brokenFrom (.literal quote) r
  | .literal quote, c :: r =>
    if c = quote then ⟨c, .literal⟩ :: brokenFrom .code r
    else if c = '\n' ∧ quote ≠ Text.backtick then ⟨c, .code⟩ :: brokenFrom .code r
    else ⟨c, .literal⟩ :: brokenFrom (.literal quote) r
  | _, [] => []

def brokenMarks (script : Text) : List Mark := brokenFrom .code script

/-- The statements of a script in which every line feed ends a quoted literal. -/
def brokenStatements (script : Text) : List Text := trimmedTexts (Scanner.start.run (brokenMarks script))

/-! ## Marks -/

/-- Marks of a text without carriage returns, and those of the text with them. A carriage return is in a literal only
behind a literal character, which `inLiteral` says of the last one. -/
inductive Feeds : Bool → List Mark → List Mark → Prop
  | nil {inLiteral : Bool} : Feeds inLiteral [] []
  | char {inLiteral : Bool} {m : Mark} {ms ms' : List Mark} (hm : m.char ≠ '\n')
      (h : Feeds (m.role == .literal) ms ms') : Feeds inLiteral (m :: ms) (m :: ms')
  | feed {inLiteral : Bool} {role role' : Role} {ms ms' : List Mark}
      (hrole : inLiteral = true ∨ role ≠ .literal ∧ role' ≠ .literal) (h : Feeds (role == .literal) ms ms') :
      Feeds inLiteral (⟨'\n', role⟩ :: ms) (⟨'\r', role'⟩ :: ⟨'\n', role⟩ :: ms')

theorem opensComment_crlf (t : Text) : opensComment (crlf t) = opensComment t := by
  cases t with
  | nil => rfl
  | cons c t =>
    by_cases hc : c = '\n'
    · subst hc
      rw [Text.crlf_feed]
      rfl
    · rw [Text.crlf_cons hc]
      rfl

theorem crlf_ne_cons {c : Char} {t : Text} (hc : c ≠ '\r') (h : ∀ r, t ≠ c :: r) (r : Text) : crlf t ≠ c :: r := by
  intro e
  have hhead := congrArg List.head? e
  rw [Text.head?_crlf, List.head?_cons] at hhead
  split at hhead
  · exact hc (Option.some.inj hhead).symm
  · obtain ⟨r, hr⟩ := List.head?_eq_some_iff.1 hhead
    exact h r hr

/-- The role of a character that changes no state. -/
def MarkState.role : MarkState → Role
  | .code => .code
  | .lineComment | .blockComment => .comment
  | .literal _ => .literal

theorem ne_literal {state : MarkState} (h : state.role ≠ .literal) {p : Char → Prop} :
    ∀ q, state = .literal q → p q := by
  rintro q rfl
  exact absurd rfl h

theorem ne_of_isQuote {quote c : Char} (hquote : Text.isQuote quote = true) (hc : Text.isQuote c = false) :
    c ≠ quote := by
  rintro rfl
  exact absurd (hquote.symm.trans hc) (by decide)

theorem marksFrom_crlf_feed (state : MarkState) (hstate : ∀ q, state = .literal q → Text.isQuote q = true) (t : Text) :
    marksFrom state (crlf ('\n' :: t)) = ⟨'\r', state.role⟩ :: marksFrom state ('\n' :: crlf t) := by
  rw [Text.crlf_feed]
  cases state with
  | code => exact marksFrom_code fun e => absurd e (by decide)
  | lineComment =>
    rw [marksFrom, if_neg (by decide)]
    rfl
  | blockComment => exact marksFrom_blockComment_cons fun e => absurd e (by decide)
  | literal quote =>
    rw [marksFrom_literal_cons (by decide), if_neg (ne_of_isQuote (hstate _ rfl) (by decide)), if_neg (by simp)]
    rfl

/-- The marks of a text with carriage returns are those of its broken reading, with the carriage returns. -/
theorem feeds_marksFrom {state : MarkState} {t : Text} {inLiteral : Bool}
    (hstate : ∀ q, state = .literal q → Text.isQuote q = true ∧ inLiteral = true) :
    Feeds inLiteral (brokenFrom state t) (marksFrom state (crlf t)) := by
  have hstay : ∀ {quote : Char}, Text.isQuote quote = true →
      ∀ q, MarkState.literal quote = .literal q → Text.isQuote q = true ∧ (Role.literal == .literal) = true := by
    rintro quote hquote q ⟨⟩
    exact ⟨hquote, rfl⟩
  fun_induction brokenFrom state t generalizing inLiteral with
  | case1 r ih =>
    rw [Text.crlf_cons (by decide), Text.crlf_cons (by decide), marksFrom]
    exact .char (by decide) (.char (by decide) (ih (ne_literal (by decide))))
  | case2 r ih =>
    rw [Text.crlf_cons (by decide), Text.crlf_cons (by decide), marksFrom]
    exact .char (by decide) (.char (by decide) (ih (ne_literal (by decide))))
  | case3 c r hline hblock hq ih =>
    have hc : c ≠ '\n' := (ne_of_isQuote hq (by decide)).symm
    rw [Text.crlf_cons hc, marksFrom_code fun e => absurd e (ne_of_isQuote hq (by decide)).symm, if_pos hq]
    exact .char hc (ih (hstay hq))
  | case4 c r hline hblock hq ih =>
    by_cases hc : c = '\n'
    · subst hc
      rw [marksFrom_crlf_feed .code (ne_literal (by decide)), marksFrom_line_feed]
      exact .feed (.inr (by decide)) (ih (ne_literal (by decide)))
    · have hopens : c = '/' → opensComment (crlf r) = false := by
        rintro rfl
        rw [opensComment_crlf, opensComment_eq_false]
        refine ⟨fun e => ?_, fun e => ?_⟩
        · obtain ⟨r', rfl⟩ := List.head?_eq_some_iff.1 e
          exact hline r' rfl rfl
        · obtain ⟨r', rfl⟩ := List.head?_eq_some_iff.1 e
          exact hblock r' rfl rfl
      rw [Text.crlf_cons hc, marksFrom_code hopens, if_neg hq]
      exact .char hc (ih (ne_literal (by decide)))
  | case5 r ih =>
    rw [marksFrom_crlf_feed .lineComment (ne_literal (by decide)), marksFrom, if_pos rfl]
    exact .feed (.inr (by decide)) (ih (ne_literal (by decide)))
  | case6 c r hc ih =>
    rw [Text.crlf_cons hc, marksFrom, if_neg hc]
    exact .char hc (ih (ne_literal (by decide)))
  | case7 r ih =>
    rw [Text.crlf_cons (by decide), Text.crlf_cons (by decide), marksFrom]
    exact .char (by decide) (.char (by decide) (ih (ne_literal (by decide))))
  | case8 c r hclose ih =>
    by_cases hc : c = '\n'
    · subst hc
      rw [marksFrom_crlf_feed .blockComment (ne_literal (by decide)),
        marksFrom_blockComment_cons fun e => absurd e (by decide)]
      exact .feed (.inr (by decide)) (ih (ne_literal (by decide)))
    · have hclose' : c = '*' → ∀ r', crlf r ≠ '/' :: r' := fun e =>
        crlf_ne_cons (by decide) fun r' hr => hclose r' e hr
      rw [Text.crlf_cons hc, marksFrom_blockComment_cons hclose']
      exact .char hc (ih (ne_literal (by decide)))
  | case9 quote c r hfeed ih =>
    -- the backslash escapes the carriage return, and the line feed breaks the literal
    obtain ⟨rfl, hback⟩ := hfeed
    rw [Text.crlf_cons (by decide), Text.crlf_feed, marksFrom, marksFrom_literal_cons (by decide),
      if_neg (ne_of_isQuote (hstate _ rfl).1 (by decide)), if_pos ⟨rfl, hback⟩]
    exact .char (by decide) (.feed (.inl rfl) (ih (ne_literal (by decide))))
  | case10 quote c r hfeed ih =>
    by_cases hc : c = '\n'
    · subst hc
      rw [Text.crlf_cons (by decide), Text.crlf_feed, marksFrom, marksFrom_literal_cons (by decide),
        if_neg (ne_of_isQuote (hstate _ rfl).1 (by decide)), if_neg hfeed]
      exact .char (by decide) (.feed (.inl rfl) (ih (hstay (hstate _ rfl).1)))
    · rw [Text.crlf_cons (by decide), Text.crlf_cons hc, marksFrom]
      exact .char (by decide) (.char hc (ih (hstay (hstate _ rfl).1)))
  | case11 c r hescape ih =>
    obtain ⟨hquote, -⟩ := hstate _ rfl
    have hc : c ≠ '\n' := (ne_of_isQuote hquote (by decide)).symm
    rw [Text.crlf_cons hc, marksFrom_literal_cons (ne_of_isQuote hquote (by decide)).symm, if_pos rfl]
    exact .char hc (ih (ne_literal (by decide)))
  | case12 quote c r hescape hne hline ih =>
    obtain ⟨-, rfl⟩ := hstate _ rfl
    obtain ⟨rfl, hback⟩ := hline
    rw [marksFrom_crlf_feed _ fun q e => (hstate q e).1, marksFrom_literal_cons (by decide), if_neg hne,
      if_pos ⟨rfl, hback⟩]
    exact .feed (.inl rfl) (ih (ne_literal (by decide)))
  | case13 quote c r hescape hne hline ih =>
    obtain ⟨-, rfl⟩ := hstate _ rfl
    by_cases hc : c = '\n'
    · subst hc
      rw [marksFrom_crlf_feed _ fun q e => (hstate q e).1, marksFrom_literal_cons (by decide), if_neg hne,
        if_neg hline]
      exact .feed (.inl rfl) (ih (hstay (hstate _ rfl).1))
    · -- a backslash here is the last character
      have hmarks : marksFrom (.literal quote) (c :: crlf r) =
          ⟨c, .literal⟩ :: marksFrom (.literal quote) (crlf r) := by
        by_cases hslash : c = '\\'
        · cases r with
          | nil => rw [Text.crlf_nil, marksFrom, if_neg hne, if_neg hline]; exact fun _ _ _ e => by cases e
          | cons d r => exact absurd rfl (hescape d r hslash)
        · rw [marksFrom_literal_cons hslash, if_neg hne, if_neg hline]
      rw [Text.crlf_cons hc, hmarks]
      exact .char hc (ih (hstay (hstate _ rfl).1))
  | case14 state =>
    rw [Text.crlf_nil, marksFrom]
    exact .nil

theorem Feeds.map_char {inLiteral : Bool} {ms ms' : List Mark} (h : Feeds inLiteral ms ms') :
    ms'.map Mark.char = crlf (ms.map Mark.char) := by
  induction h with
  | nil => rfl
  | char hm h ih => rw [List.map_cons, List.map_cons, Text.crlf_cons hm, ih]
  | feed hrole h ih =>
    rw [List.map_cons, List.map_cons, List.map_cons, ih]
    exact (Text.crlf_feed _).symm

theorem endsBlock_crlf (t : Text) : endsBlock (crlf t) = endsBlock t := by
  induction t with
  | nil => rfl
  | cons c t ih =>
    by_cases hc : c = '\n'
    · subst hc
      rw [Text.crlf_feed, endsBlock_cons_blank (by decide), endsBlock_cons_blank (by decide),
        endsBlock_cons_blank (by decide), ih]
    · cases hblank : Text.isBlank c with
      | true => rw [Text.crlf_cons hc, endsBlock_cons_blank hblank, endsBlock_cons_blank hblank, ih]
      | false =>
        have hword := Text.takeWhile_crlf (p := Text.isIdentChar) (by decide) (by decide) (c :: t)
        rw [Text.crlf_cons hc] at hword ⊢
        rw [endsBlock_cons hblank, endsBlock_cons hblank, hword]

/-! ## The scan -/

namespace Scanner

/-- Scans at the same depth whose open statements are the same up to line endings. -/
structure Fed (s s' : Scanner) : Prop where
  depth : s'.depth = s.depth
  current : (s'.current.map fun o => o.read.reverse) = s.current.map fun o => crlf o.read.reverse

section
variable {s s' : Scanner} {ms ms' : List Mark}

theorem Fed.passed (h : s.Fed s') (t : Text) : (s.passed t).Fed (s'.passed (crlf t)) := by
  refine ⟨h.depth, ?_⟩
  have hcurrent := congrArg (Option.map (· ++ crlf t)) h.current
  simpa [Scanner.passed, Function.comp_def, Text.crlf_append] using hcurrent

theorem Fed.started (h : s.Fed s') : s.started.Fed s'.started := by
  refine ⟨h.depth, ?_⟩
  have hcurrent := h.current
  unfold Scanner.started
  cases hs : s.current <;> cases hs' : s'.current <;> simp_all

theorem Fed.pending (h : s.Fed s') : s'.pending.map Span.text = s.pending.map fun sp => crlf sp.text := by
  have hcurrent := congrArg Option.toList h.current
  have htexts : ∀ {s : Scanner} (f : Text → Text), s.pending.map (fun sp => f sp.text) =
      (s.current.map fun o => f o.read.reverse).toList := by
    intro s f
    rw [Scanner.pending]
    cases s.current <;> rfl
  exact (htexts id).trans (hcurrent.trans (htexts crlf).symm)

theorem Fed.step (h : s.Fed s') {m : Mark} (hm : m.char ≠ '\n')
    (hends : endsBlock (ms'.map Mark.char) = endsBlock (ms.map Mark.char)) :
    (s'.step m ms').1.map Span.text = (s.step m ms).1.map (fun sp => crlf sp.text) ∧
      (s.step m ms).2.Fed (s'.step m ms').2 := by
  obtain ⟨c, role⟩ := m
  have hchar : crlf [c] = [c] := Text.crlf_cons hm []
  have hpassed := h.passed [c]
  have hstarted := h.started.passed [c]
  rw [hchar] at hpassed hstarted
  have hextended : ∀ d o o', Fed ⟨o, d, some (s.extended c)⟩ ⟨o', d, some (s'.extended c)⟩ := by
    intro d o o'
    rw [some_extended, some_extended]
    exact ⟨rfl, hstarted.current⟩
  have hcontinued : ∀ d o o', Fed ⟨o, d, s.continued c⟩ ⟨o', d, s'.continued c⟩ := fun d o o' =>
    ⟨rfl, hpassed.current⟩
  have hnone : ∀ o o', Fed ⟨o, 0, none⟩ ⟨o', 0, none⟩ := fun o o' => ⟨rfl, rfl⟩
  cases role with
  | comment => exact ⟨rfl, h.depth, hpassed.current⟩
  | literal => exact ⟨rfl, h.depth, (hextended 0 0 0).current⟩
  | code =>
    simp only [Scanner.step, stepCode, h.depth, hends]
    split
    · exact ⟨rfl, hextended _ _ _⟩
    split
    · split
      · exact ⟨hpassed.pending, hnone _ _⟩
      · exact ⟨rfl, hcontinued _ _ _⟩
    split
    · exact ⟨h.pending, hnone _ _⟩
    split
    · exact ⟨rfl, hcontinued _ _ _⟩
    · exact ⟨rfl, hextended _ _ _⟩

/-- A line feed or a carriage return is taken in by an open statement, and skipped where none is open and it is in no
literal. -/
theorem run_ending {c : Char} {role : Role} (hc : Text.isAsciiBlank c = true)
    (hrole : s.current.isSome = true ∨ role ≠ .literal) :
    s.run (⟨c, role⟩ :: ms) = (s.passed [c]).run ms := by
  cases role with
  | code => exact run_blank s hc ms
  | comment => exact run_comment s [c] ms
  | literal => exact run_literal (hrole.resolve_right fun hne => hne rfl) [c] ms

theorem isSome_current_step {m : Mark} (hm : m.role = .literal) : (s.step m ms).2.current.isSome = true := by
  rw [Scanner.step, hm]
  rfl

/-- The statements with carriage returns are those without, each with carriage returns. -/
theorem Fed.run {inLiteral : Bool} (h : s.Fed s') (hms : Feeds inLiteral ms ms')
    (hopen : inLiteral = true → s.current.isSome = true) :
    (s'.run ms').map Span.text = (s.run ms).map fun sp => crlf sp.text := by
  induction hms generalizing s s' with
  | nil => exact h.pending
  | @char inLiteral m ms ms' hm hms ih =>
    have hends : endsBlock (ms'.map Mark.char) = endsBlock (ms.map Mark.char) := by
      rw [hms.map_char, endsBlock_crlf]
    obtain ⟨hout, hnext⟩ := h.step hm hends
    have hrest := ih hnext fun hrole => isSome_current_step (by simpa using hrole)
    rw [Scanner.run, Scanner.run, List.map_append, List.map_append, hout, hrest]
  | @feed inLiteral role role' ms ms' hrole hms ih =>
    have hsome : s'.current.isSome = s.current.isSome := by
      simpa using congrArg Option.isSome h.current
    have hroles : (s.current.isSome = true ∨ role ≠ .literal) ∧ (s.current.isSome = true ∨ role' ≠ .literal) :=
      hrole.elim (fun hin => ⟨.inl (hopen hin), .inl (hopen hin)⟩) fun hne => ⟨.inr hne.1, .inr hne.2⟩
    have hnext : (s.passed ['\n']).Fed ((s'.passed ['\r']).passed ['\n']) := by
      rw [← passed_append]
      exact h.passed ['\n']
    have hrest := ih hnext fun hliteral => by
      rw [isSome_current_passed]
      exact hroles.1.resolve_right fun hne => hne (by simpa using hliteral)
    rw [run_ending (by decide) hroles.1, run_ending (by decide) (hsome ▸ hroles.2),
      run_ending (by decide) (by rw [isSome_current_passed, hsome]; exact hroles.1), hrest]

end

end Scanner

/-! ## Statements -/

/-- The statements of a script with carriage returns are those of its broken reading, each with carriage returns. -/
theorem statements_crlf (script : Text) : statements (crlf script) = (brokenStatements script).map crlf := by
  have hfeeds : Feeds false (brokenMarks script) (marks (crlf script)) :=
    feeds_marksFrom (ne_literal (by decide))
  have hstart : Scanner.start.Fed .start := ⟨rfl, rfl⟩
  have hrun := hstart.run hfeeds fun e => absurd e (by decide)
  have htrim : ∀ ss : List Span, (ss.map fun sp => Text.trim (crlf sp.text)).filter (· ≠ []) =
      (trimmedTexts ss).map crlf := by
    intro ss
    induction ss with
    | nil => rfl
    | cons sp ss ih =>
      rw [List.map_cons, List.filter_cons, ih, Text.trim_crlf, trimmedTexts_cons]
      by_cases hnil : Text.trim sp.text = [] <;> simp [hnil, Text.crlf_eq_nil]
  have htexts := congrArg (fun ts : List Text => (ts.map Text.trim).filter (· ≠ [])) hrun
  simp only [List.map_map] at htexts
  exact htexts.trans (htrim _)

/-- Line endings do not count for the statements of a script exactly if these stay the same where every line feed ends a
quoted literal, also behind a backslash; so they do not count if no backslash keeps a line feed in a quoted literal. -/
theorem statements_crlf_iff (script : Text) :
    (statements (crlf script) = (statements script).map crlf ↔ brokenStatements script = statements script) ∧
      (brokenMarks script = marks script → statements (crlf script) = (statements script).map crlf) := by
  have hiff : statements (crlf script) = (statements script).map crlf ↔
      brokenStatements script = statements script := by
    rw [statements_crlf]
    exact (List.map_injective_iff.2 Text.crlf_injective).eq_iff
  refine ⟨hiff, fun hmarks => hiff.2 ?_⟩
  rw [brokenStatements, hmarks]
  rfl

/-- A literal that goes on in a second line ends in the first one with carriage returns. -/
theorem statements_crlf_continued :
    let script := "x = 'a\\\n;b';\ny = 1;".toList
    '\r' ∉ script ∧ statements script = ["x = 'a\\\n;b'".toList, "y = 1".toList] ∧
      statements (crlf script) = ["x = 'a\\".toList, "b';\r\ny = 1".toList] ∧
      statements (crlf script) ≠ (statements script).map crlf := by
  decide +kernel

end ThriftModules.Script
