import ThriftModules.Proofs.Script.Lexeme

/-!
# How a script is cut into statements

What the scanner does with any script, said once: brackets need not balance, and literals and comments need not be
closed.

* `Mark.depth`, `depthAfter` : the bracket depth, where a closing bracket too many does not count;
* `Mark.starts`, `Mark.stops` : whether a character starts a statement where none is open, and whether it ends the one
  that it stands in;
* `Mark.isInert` : whether a character counts for neither;
* `Takes`, `Scanner.run_takes` : what an open statement takes in, up to its end (`Takes.boundary`);
* `IsCut`, `Scanner.run_cut` : what is cut off as a statement in front of the rest;
* `Cuts`, `cuts_run`, `cuts_spans` : the statements of a script in turn, with what stands between them.
-/

namespace ThriftModules.Script

set_option autoImplicit false

/-! ## Single characters -/

/-- The bracket depth behind a character. A closing bracket too many does not count. -/
def Mark.depth (d : Nat) (m : Mark) : Nat :=
  if m.role ≠ .code then d else if isOpening m.char then d + 1 else if isClosing m.char then d - 1 else d

def depthAfter (d : Nat) (ms : List Mark) : Nat := ms.foldl Mark.depth d

/-- Whether a character starts a statement where none is open. -/
def Mark.starts (m : Mark) : Bool :=
  m.role == .literal || m.role == .code && !(isClosing m.char || m.char == ';' || Text.isAsciiBlank m.char)

/-- Whether a character ends the statement that it stands in, in front of `rest`: a semicolon outside brackets, or a
brace that brings the depth to zero where `rest` does not go on. -/
def Mark.stops (d : Nat) (m : Mark) (rest : Text) : Bool :=
  m.role == .code && (m.char == ';' && d == 0 || m.char == '}' && (decide (d ≤ 1) && endsBlock rest))

theorem Mark.stops_iff {m : Mark} {d : Nat} {rest : Text} :
    m.stops d rest = true ↔ m = ⟨';', .code⟩ ∧ d = 0 ∨ m = ⟨'}', .code⟩ ∧ d ≤ 1 ∧ endsBlock rest = true := by
  obtain ⟨c, role⟩ := m
  cases role <;> simp [stops]

/-- A character that counts neither for the depth nor for the end of a statement. -/
def Mark.isInert (m : Mark) : Bool := m.role != .code || !isOpening m.char && !isClosing m.char && m.char != ';'

theorem Mark.isInert_iff {m : Mark} :
    m.isInert = true ↔ m.role ≠ .code ∨ isOpening m.char = false ∧ isClosing m.char = false ∧ m.char ≠ ';' := by
  simp [isInert, and_assoc]

theorem Mark.isInert_of_isQuiet {c : Char} (h : isQuiet c = true) : Mark.isInert ⟨c, .code⟩ = true :=
  isInert_iff.2 (.inr (isQuiet_iff.1 h).2)

theorem isInert_codes {t : Text} (h : ∀ c ∈ t, isQuiet c = true) : ∀ m ∈ t.map (Mark.mk · .code), m.isInert = true := by
  intro m hm
  obtain ⟨c, hc, rfl⟩ := List.mem_map.1 hm
  exact Mark.isInert_of_isQuiet (h c hc)

theorem isInert_of_ne_code {t : Text} {role : Role} (h : role ≠ .code) :
    ∀ m ∈ t.map (Mark.mk · role), m.isInert = true := by
  intro m hm
  obtain ⟨c, -, rfl⟩ := List.mem_map.1 hm
  exact Mark.isInert_iff.2 (.inl h)

section
variable {m : Mark} (h : m.isInert = true)
include h

theorem Mark.depth_of_isInert (d : Nat) : m.depth d = d := by
  rcases isInert_iff.1 h with hrole | ⟨hopen, hclose, -⟩
  · rw [depth, if_pos hrole]
  · simp [depth, hopen, hclose]

theorem Mark.stops_of_isInert (d : Nat) (rest : Text) : m.stops d rest = false := by
  rcases isInert_iff.1 h with hrole | ⟨-, hclose, hsemi⟩
  · simp [stops, hrole]
  · have hbrace : m.char ≠ '}' := by
      intro e
      rw [e] at hclose
      cases hclose
    simp [stops, hsemi, hbrace]

end

theorem Mark.starts_code {c : Char} :
    Mark.starts ⟨c, .code⟩ = true ↔ isClosing c = false ∧ c ≠ ';' ∧ Text.isAsciiBlank c = false := by
  simp [starts, and_assoc]

theorem Mark.stops_of_starts {m : Mark} (h : m.starts = true) (d : Nat) (rest : Text) : m.stops d rest = false := by
  obtain ⟨c, role⟩ := m
  cases role with
  | code =>
    obtain ⟨hclose, hsemi, -⟩ := Mark.starts_code.1 h
    have hbrace : c ≠ '}' := by
      rintro rfl
      exact absurd hclose (by decide)
    simp [stops, hsemi, hbrace]
  | literal => rfl
  | comment => rfl

/-! ## An open statement -/

/-- What a statement that is open at the given depth takes in up to its end, in front of the rest of the script. -/
inductive Takes : Nat → List Mark → List Mark → Prop
  | atEnd {d : Nat} : Takes d [] []
  | semicolon {rest : List Mark} : Takes 0 [] (⟨';', .code⟩ :: rest)
  | brace {d : Nat} {rest : List Mark} (hd : d ≤ 1) (h : endsBlock (rest.map Mark.char) = true) :
      Takes d [⟨'}', .code⟩] rest
  | step {d : Nat} {m : Mark} {ms rest : List Mark} (hm : m.stops d ((ms ++ rest).map Mark.char) = false)
      (h : Takes (m.depth d) ms rest) : Takes d (m :: ms) rest

theorem Takes.inert_append {d : Nat} {xs ms rest : List Mark} (hxs : ∀ m ∈ xs, m.isInert = true)
    (h : Takes d ms rest) : Takes d (xs ++ ms) rest := by
  induction xs with
  | nil => exact h
  | cons x xs ih =>
    have hx := hxs x List.mem_cons_self
    refine .step (x.stops_of_isInert hx d _) ?_
    rw [x.depth_of_isInert hx]
    exact ih fun m hm => hxs m (List.mem_cons_of_mem x hm)

theorem Takes.of_inert_append {d : Nat} {xs ms rest : List Mark} (hxs : ∀ m ∈ xs, m.isInert = true)
    (h : Takes d (xs ++ ms) rest) : Takes d ms rest := by
  induction xs with
  | nil => exact h
  | cons x xs ih =>
    have hx := hxs x List.mem_cons_self
    refine ih (fun m hm => hxs m (List.mem_cons_of_mem x hm)) ?_
    rw [List.cons_append] at h
    generalize hall : xs ++ ms = all at h
    cases h with
    | brace hd hend => cases hx
    | step hm h => rwa [x.depth_of_isInert hx] at h

/-- A statement ends with a brace, or with the script, or in front of a semicolon. -/
theorem Takes.boundary {d : Nat} {ms rest : List Mark} (h : Takes d ms rest) :
    ms.getLast? = some ⟨'}', .code⟩ ∨ rest = [] ∨ rest.head? = some ⟨';', .code⟩ := by
  induction h with
  | atEnd => exact .inr (.inl rfl)
  | semicolon => exact .inr (.inr rfl)
  | brace => exact .inl rfl
  | @step d m ms rest hm h ih =>
    refine ih.imp_left fun hlast => ?_
    rw [List.getLast?_cons, hlast]
    rfl

namespace Scanner

variable {s : Scanner} {o : OpenStatement} {m : Mark} {ms rest : List Mark}

/-- The depth that a character leaves does not depend on what follows it. -/
theorem step_depth (s : Scanner) (m : Mark) (rest : List Mark) : (s.step m rest).2.depth = m.depth s.depth := by
  obtain ⟨c, role⟩ := m
  cases role with
  | comment => rfl
  | literal => rfl
  | code =>
    simp only [step, stepCode, Mark.depth]
    split
    · rfl
    split
    · split
      · next h =>
        have hle : s.depth ≤ 1 := by simpa using (Bool.and_eq_true_iff.1 (Bool.and_eq_true_iff.1 h).1).2
        simp; omega
      · rfl
    split
    · next h => simp [h.2]
    split <;> rfl

/-- A character that does not end the open statement is read into it. -/
theorem run_goesOn (ho : s.current = some o) (hm : m.stops s.depth (rest.map Mark.char) = false) :
    s.run (m :: rest) =
      (⟨s.offset + m.char.utf8Size, m.depth s.depth, some ⟨o.start, m.char :: o.read⟩⟩ : Scanner).run rest := by
  suffices h : (s.step m rest).1 = [] ∧ (s.step m rest).2.offset = s.offset + m.char.utf8Size ∧
      (s.step m rest).2.current = some ⟨o.start, m.char :: o.read⟩ by
    have hdepth := s.step_depth m rest
    obtain ⟨hout, hoffset, hcurrent⟩ := h
    rw [run, hout, List.nil_append, ← hoffset, ← hdepth, ← hcurrent]
  obtain ⟨c, role⟩ := m
  cases role with
  | comment => exact ⟨rfl, rfl, by simp [step, continued, ho]⟩
  | literal => exact ⟨rfl, rfl, by simp [step, extended, ho]⟩
  | code =>
    simp only [Mark.stops, beq_self_eq_true, Bool.true_and, Bool.or_eq_false_iff] at hm
    obtain ⟨hsemi, hbrace⟩ := hm
    rw [← Bool.and_assoc] at hbrace
    simp only [step, stepCode, hbrace]
    split
    · exact ⟨rfl, rfl, by simp [extended, ho]⟩
    split
    · exact ⟨rfl, rfl, by simp [continued, ho]⟩
    split
    · next h => simp [h.1, h.2] at hsemi
    split
    · exact ⟨rfl, rfl, by simp [continued, ho]⟩
    · exact ⟨rfl, rfl, by simp [extended, ho]⟩

/-- The open statement is completed by what it takes in. -/
theorem run_takes (ho : s.current = some o) (h : Takes s.depth ms rest) :
    s.run (ms ++ rest) = ⟨o.start, o.read.reverse ++ ms.map Mark.char⟩ ::
      (⟨s.offset + Text.byteLength (ms.map Mark.char), 0, none⟩ : Scanner).run rest := by
  generalize hd : s.depth = d at h
  induction h generalizing s o with
  | atEnd => simp [run, pending, ho, OpenStatement.span]
  | semicolon =>
    rw [List.nil_append, run_semicolon hd, run_semicolon rfl]
    simp [pending, ho, OpenStatement.span, Text.byteLength]
  | brace hle hend => exact run_brace ho (hd ▸ hle) hend
  | step hm h ih =>
    subst hd
    rw [List.cons_append, run_goesOn ho hm, ih rfl rfl]
    simp [Text.byteLength, Nat.add_assoc]

/-- Where no statement is open, a character that starts one is read as in a statement that has just been opened. -/
theorem run_starts (hm : m.starts = true) (rest : List Mark) : s.run (m :: rest) = s.started.run (m :: rest) := by
  obtain ⟨c, role⟩ := m
  cases role with
  | comment => cases hm
  | literal => rw [run, run, step, step, extended_started]; rfl
  | code =>
    obtain ⟨hclose, hsemi, hblank⟩ := Mark.starts_code.1 hm
    exact run_started (p := .code c) hblank (fun d hd => by cases hd; exact ⟨hclose, hsemi⟩) rest

/-- Where no statement is open, a character that starts none is skipped. -/
theorem run_skips (h0 : s.depth = 0) (hn : s.current = none) (hm : m.starts = false) (rest : List Mark) :
    s.run (m :: rest) = (s.passed [m.char]).run rest := by
  have hpassed : s.passed [m.char] = ⟨s.offset + m.char.utf8Size, 0, none⟩ := by
    simp [passed, hn, h0, Text.byteLength]
  have hcontinued : ∀ c, s.continued c = none := fun c => by rw [continued, hn]; rfl
  rw [hpassed]
  obtain ⟨c, role⟩ := m
  cases role with
  | comment => rw [run, step, hcontinued, h0]; rfl
  | literal => cases hm
  | code =>
    have hopen : isOpening c = false := by
      cases ho : isOpening c with
      | false => rfl
      | true =>
        obtain ⟨hblank, -⟩ := isOpening_not_blank ho
        have hclose : isClosing c = false := by
          cases hc : isClosing c with
          | false => rfl
          | true => rw [isOpening_of_isClosing hc] at ho; cases ho
        have hsemi : c ≠ ';' := by
          rintro rfl
          exact absurd ho (by decide)
        have hascii : Text.isAsciiBlank c = false := by
          cases ha : Text.isAsciiBlank c with
          | false => rfl
          | true => rw [Text.isBlank_of_isAsciiBlank ha] at hblank; cases hblank
        rw [Mark.starts_code.2 ⟨hclose, hsemi, hascii⟩] at hm
        cases hm
    have hstep : s.stepCode c rest = ([], ⟨s.offset + c.utf8Size, 0, none⟩) := by
      rw [stepCode, if_neg (by rw [hopen]; exact Bool.false_ne_true), hcontinued, h0]
      split
      · split <;> rfl
      split
      · rw [pending, hn]
        rfl
      split
      · rfl
      · next hclose hsemi hblank =>
        rw [Mark.starts_code.2 ⟨by simpa using hclose, fun e => hsemi ⟨e, rfl⟩, by simpa using hblank⟩] at hm
        cases hm
    rw [run, step, hstep]
    rfl

theorem run_gap {gap : List Mark} (h0 : s.depth = 0) (hn : s.current = none) (hgap : ∀ m ∈ gap, m.starts = false)
    (rest : List Mark) : s.run (gap ++ rest) = (s.passed (gap.map Mark.char)).run rest := by
  induction gap generalizing s with
  | nil => rw [List.map_nil, passed_nil]; rfl
  | cons m gap ih =>
    have hnone : (s.passed [m.char]).current = none := by rw [passed, hn]; rfl
    rw [List.cons_append, run_skips h0 hn (hgap m List.mem_cons_self),
      ih (s := s.passed [m.char]) h0 hnone fun x hx => hgap x (List.mem_cons_of_mem m hx), ← passed_append]
    rfl

end Scanner

/-! ## Statements -/

/-- What the scanner cuts off as a statement, in front of the rest of the script. -/
structure IsCut (ms rest : List Mark) : Prop where
  starts : ∃ m ms', ms = m :: ms' ∧ m.starts = true
  takes : Takes 0 ms rest

/-- Where no statement is open, what is cut off is the next statement. -/
theorem Scanner.run_cut {s : Scanner} {ms rest : List Mark} (h0 : s.depth = 0) (hn : s.current = none)
    (h : IsCut ms rest) :
    s.run (ms ++ rest) = ⟨s.offset, ms.map Mark.char⟩ ::
      (⟨s.offset + Text.byteLength (ms.map Mark.char), 0, none⟩ : Scanner).run rest := by
  obtain ⟨⟨m, ms', rfl, hm⟩, htakes⟩ := h
  have hstarted : s.started.current = some ⟨s.offset, []⟩ := by simp [started, hn]
  have hrun := run_takes hstarted (h0 ▸ htakes : Takes s.started.depth _ _)
  rw [List.cons_append] at hrun ⊢
  rw [run_starts hm, hrun]
  rfl

def Lexeme.starts : Lexeme → Bool
  | code c => Mark.starts ⟨c, .code⟩
  | literal _ => true
  | comment _ => false

theorem Lexeme.starts_marks {l : Lexeme} (h : l.starts = false) : ∀ m ∈ l.marks, m.starts = false := by
  cases l with
  | code c => exact fun m hm => List.mem_singleton.1 hm ▸ h
  | literal t => cases h
  | comment t =>
    intro m hm
    obtain ⟨c, -, rfl⟩ := List.mem_map.1 hm
    rfl

/-- A statement that is open takes in some of the lexemes behind it. -/
theorem exists_takes (d : Nat) (ls : List Lexeme) :
    ∃ qs rest, ls = qs ++ rest ∧ Takes d (marked qs) (marked rest) := by
  induction ls generalizing d with
  | nil => exact ⟨[], [], rfl, .atEnd⟩
  | cons l ls ih =>
    have hinert : (∀ m ∈ l.marks, m.isInert = true) →
        ∃ qs rest, l :: ls = qs ++ rest ∧ Takes d (marked qs) (marked rest) := by
      intro hl
      obtain ⟨qs, rest, rfl, h⟩ := ih d
      exact ⟨l :: qs, rest, rfl, h.inert_append hl⟩
    cases l with
    | literal t => exact hinert (isInert_of_ne_code nofun)
    | comment t => exact hinert (isInert_of_ne_code nofun)
    | code c =>
      cases hstops : Mark.stops d ⟨c, .code⟩ (spelling ls) with
      | false =>
        obtain ⟨qs, rest, rfl, h⟩ := ih (Mark.depth d ⟨c, .code⟩)
        refine ⟨.code c :: qs, rest, rfl, .step ?_ h⟩
        rwa [← map_char_marked, marked_append] at hstops
      | true =>
        obtain ⟨⟨⟩, rfl⟩ | ⟨⟨⟩, hd, hend⟩ := Mark.stops_iff.1 hstops
        · exact ⟨[], _, rfl, .semicolon⟩
        · exact ⟨[.code '}'], ls, rfl, .brace hd (by rwa [map_char_marked])⟩

/-- A lexeme that starts a statement is cut off with some of the lexemes behind it. -/
theorem exists_isCut {l : Lexeme} (hl : l.starts = true) (hne : l.text ≠ []) (ls : List Lexeme) :
    ∃ qs rest, ls = qs ++ rest ∧ IsCut (marked (l :: qs)) (marked rest) := by
  cases l with
  | comment t => cases hl
  | literal t =>
    obtain ⟨qs, rest, rfl, h⟩ := exists_takes 0 ls
    obtain ⟨c, r, rfl⟩ := List.exists_cons_of_ne_nil hne
    exact ⟨qs, rest, rfl, ⟨⟨c, .literal⟩, _, rfl, rfl⟩, h.inert_append (isInert_of_ne_code nofun)⟩
  | code c =>
    obtain ⟨qs, rest, rfl, h⟩ := exists_takes (Mark.depth 0 ⟨c, .code⟩) ls
    exact ⟨qs, rest, rfl, ⟨_, _, rfl, hl⟩, .step (Mark.stops_of_starts hl 0 _) h⟩

/-! ## Scripts -/

/-- The statements of lexemes that stand at a byte offset, with what stands between them. -/
inductive Cuts : Nat → List Lexeme → List Span → Prop
  | last {o : Nat} {gap : List Lexeme} (hgap : ∀ l ∈ gap, l.starts = false) : Cuts o gap []
  | next {o : Nat} {gap qs rest : List Lexeme} {ss : List Span} (hgap : ∀ l ∈ gap, l.starts = false)
      (hcut : IsCut (marked qs) (marked rest))
      (h : Cuts (o + Text.byteLength (spelling gap) + Text.byteLength (spelling qs)) rest ss) :
      Cuts o (gap ++ (qs ++ rest)) (⟨o + Text.byteLength (spelling gap), spelling qs⟩ :: ss)

theorem Cuts.skip {o : Nat} {l : Lexeme} {ls : List Lexeme} {ss : List Span} (hl : l.starts = false)
    (h : Cuts (o + Text.byteLength l.text) ls ss) : Cuts o (l :: ls) ss := by
  have hcons : ∀ {gap : List Lexeme}, (∀ k ∈ gap, k.starts = false) → ∀ k ∈ l :: gap, k.starts = false := by
    intro gap hgap k hk
    rcases List.mem_cons.1 hk with rfl | hk
    · exact hl
    · exact hgap k hk
  generalize ho : o + Text.byteLength l.text = o' at h
  cases h with
  | last hgap => exact .last (hcons hgap)
  | @next o' gap qs rest ss hgap hcut h =>
    subst ho
    have hoffset : o + Text.byteLength l.text + Text.byteLength (spelling gap) =
        o + Text.byteLength (spelling (l :: gap)) := by
      rw [spelling_cons, byteLength_append, Nat.add_assoc]
    rw [hoffset] at h ⊢
    exact .next (hcons hgap) hcut h

theorem Cuts.exists_of_mem {o : Nat} {ls : List Lexeme} {ss : List Span} {sp : Span} (h : Cuts o ls ss)
    (hsp : sp ∈ ss) :
    ∃ before qs rest, ls = before ++ (qs ++ rest) ∧ sp.text = spelling qs ∧ IsCut (marked qs) (marked rest) := by
  induction h with
  | last => exact (List.not_mem_nil hsp).elim
  | @next o gap qs rest ss hgap hcut h ih =>
    rcases List.mem_cons.1 hsp with rfl | hsp
    · exact ⟨gap, qs, rest, rfl, rfl, hcut⟩
    · obtain ⟨before, qs', rest', rfl, htext, hcut'⟩ := ih hsp
      exact ⟨gap ++ (qs ++ before), qs', rest', by simp only [List.append_assoc], htext, hcut'⟩

/-- Where no statement is open, the scanner cuts what follows. -/
theorem cuts_run {s : Scanner} {ls : List Lexeme} (h0 : s.depth = 0) (hn : s.current = none)
    (hne : ∀ l ∈ ls, l.text ≠ []) : Cuts s.offset ls (s.run (marked ls)) := by
  cases ls with
  | nil =>
    rw [marked_nil, Scanner.run, Scanner.pending, hn]
    exact .last (List.forall_mem_nil _)
  | cons l ls =>
    cases hl : l.starts with
    | false =>
      rw [marked_cons, Scanner.run_gap h0 hn (Lexeme.starts_marks hl), l.map_char_marks]
      have hnone : (s.passed l.text).current = none := by rw [Scanner.passed, hn]; rfl
      exact .skip hl (cuts_run (s := s.passed l.text) h0 hnone fun k hk => hne k (List.mem_cons_of_mem l hk))
    | true =>
      obtain ⟨qs, rest, rfl, hcut⟩ := exists_isCut hl (hne l List.mem_cons_self) ls
      have hrest : rest.length < (l :: (qs ++ rest)).length := by
        simp only [List.length_cons, List.length_append]
        omega
      rw [← List.cons_append, marked_append, Scanner.run_cut h0 hn hcut, map_char_marked]
      refine @Cuts.next _ [] _ _ _ (List.forall_mem_nil _) hcut ?_
      exact cuts_run (s := ⟨s.offset + Text.byteLength (spelling (l :: qs)), 0, none⟩) rfl rfl fun k hk =>
        hne k (by simp [hk])
termination_by ls.length

theorem cuts_spans {ls : List Lexeme} (h : ReadsAs ls none) : Cuts 0 ls (spans (spelling ls)) := by
  rw [spans, marks_spelling h]
  exact cuts_run (s := .start) rfl rfl h.text_ne_nil

end ThriftModules.Script
