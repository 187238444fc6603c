import Mathlib.Data.List.TakeWhile
import ThriftModules.Proofs.Script.Printed

/-!
# Where a statement ends

* `Piece.stops`, `within` : whether a piece ends the statement that it stands in, given what follows, and the depth
  after pieces that do not;
* `within_slash`, `within_congr` : behind a slash, and where brackets are still open, what follows does not count;
* `Scanner.run_within` : the scanner reads such pieces into the open statement;
* `IsSpan`, `isOfPieces_of_mem_spans` : the statements of a balanced script, each as pieces of the script.
-/

namespace ThriftModules.Script

set_option autoImplicit false

/-- Whether a piece ends the statement that it stands in, in front of `rest`: a semicolon outside brackets, or a brace
that closes the outermost bracket where `rest` does not go on. -/
def Piece.stops (d : Nat) (p : Piece) (rest : Text) : Bool := p.ends d && (p == .code ';' || endsBlock rest)

theorem Piece.stops_iff {d : Nat} {p : Piece} {rest : Text} :
    p.stops d rest = true ↔ p = .code ';' ∧ d = 0 ∨ p = .code '}' ∧ d = 1 ∧ endsBlock rest = true := by
  cases p with
  | code c =>
    simp only [stops, ends, Bool.and_eq_true, Bool.or_eq_true, beq_iff_eq, code.injEq]
    constructor
    · rintro ⟨⟨rfl, rfl⟩ | ⟨rfl, rfl⟩, h⟩
      · exact .inl ⟨rfl, rfl⟩
      · exact .inr ⟨rfl, rfl, h.resolve_left (by decide)⟩
    · rintro (⟨rfl, rfl⟩ | ⟨rfl, rfl, h⟩)
      · exact ⟨.inl ⟨rfl, rfl⟩, .inl rfl⟩
      · exact ⟨.inr ⟨rfl, rfl⟩, .inr h⟩
  | _ => simp [stops, ends]

/-- The bracket depth after pieces in front of `rest`; none if one of them ends its statement, or where the depth would
fall below zero. -/
def within (d : Nat) : List Piece → Text → Option Nat
  | [], _ => some d
  | p :: ps, rest => if p.stops d (texts ps ++ rest) then none else (p.depth? d).bind fun e => within e ps rest

theorem within_cons {d e : Nat} {p : Piece} {ps : List Piece} {rest : Text} :
    within d (p :: ps) rest = some e ↔
      p.stops d (texts ps ++ rest) = false ∧ ∃ f, p.depth? d = some f ∧ within f ps rest = some e := by
  rw [within, Option.ite_none_left_eq_some, Bool.not_eq_true, Option.bind_eq_some_iff]

theorem within_append {d f : Nat} {ps qs : List Piece} {rest : Text} :
    within d (ps ++ qs) rest = some f ↔ ∃ e, within d ps (texts qs ++ rest) = some e ∧ within e qs rest = some f := by
  induction ps generalizing d with
  | nil => simp [within]
  | cons p ps ih =>
    rw [List.cons_append, within_cons, texts_append, List.append_assoc]
    constructor
    · rintro ⟨hs, g, hg, h⟩
      obtain ⟨e, he, hq⟩ := ih.1 h
      exact ⟨e, within_cons.2 ⟨hs, g, hg, he⟩, hq⟩
    · rintro ⟨e, he, hq⟩
      obtain ⟨hs, g, hg, h⟩ := within_cons.1 he
      exact ⟨hs, g, hg, ih.2 ⟨e, h, hq⟩⟩

theorem within_of_depthInside? {d e : Nat} {ps : List Piece} (h : depthInside? d ps = some e) (rest : Text) :
    within d ps rest = some e := by
  induction ps generalizing d with
  | nil => exact h
  | cons p ps ih =>
    obtain ⟨f, hf, hr⟩ := Option.bind_eq_some_iff.1 (by simpa [depthInside?] using h)
    obtain ⟨hends, hd⟩ := Piece.inside?_eq_some.1 hf
    exact within_cons.2 ⟨by rw [Piece.stops, hends, Bool.false_and], f, hd, ih hr⟩

theorem depthAfter?_cons {d e : Nat} {p : Piece} {ps : List Piece} :
    depthAfter? d (p :: ps) = some e ↔ ∃ f, p.depth? d = some f ∧ depthAfter? f ps = some e := by
  rw [depthAfter?, List.foldlM_cons]
  exact Option.bind_eq_some_iff

theorem depthAfter?_append {d f : Nat} {ps qs : List Piece} :
    depthAfter? d (ps ++ qs) = some f ↔ ∃ e, depthAfter? d ps = some e ∧ depthAfter? e qs = some f := by
  rw [depthAfter?, List.foldlM_append]
  exact Option.bind_eq_some_iff

theorem depthAfter?_of_within {d e : Nat} {ps : List Piece} {rest : Text} (h : within d ps rest = some e) :
    depthAfter? d ps = some e := by
  induction ps generalizing d with
  | nil => exact h
  | cons p ps ih =>
    obtain ⟨-, f, hf, hr⟩ := within_cons.1 h
    exact depthAfter?_cons.2 ⟨f, hf, ih hr⟩

/-! ## What does not count -/

theorem exists_opening {d e : Nat} {ps : List Piece} (h : depthAfter? d ps = some e) (hlt : d < e) :
    ∃ c, isOpening c = true ∧ .code c ∈ ps := by
  induction ps generalizing d with
  | nil =>
    cases h
    omega
  | cons p ps ih =>
    obtain ⟨f, hf, hr⟩ := depthAfter?_cons.1 h
    by_cases hp : ∃ c, isOpening c = true ∧ p = .code c
    · obtain ⟨c, hc, rfl⟩ := hp
      exact ⟨c, hc, List.mem_cons_self⟩
    · have hfd : f ≤ d := by
        cases p with
        | code c =>
          rw [Piece.depth?, if_neg fun ho => hp ⟨c, ho, rfl⟩] at hf
          split at hf
          · split at hf <;> cases hf
            omega
          · cases hf
            exact Nat.le_refl d
        | _ =>
          cases hf
          exact Nat.le_refl d
      obtain ⟨c, hc, hm⟩ := ih hr (by omega)
      exact ⟨c, hc, List.mem_cons_of_mem p hm⟩

theorem mem_texts_of_code {c : Char} {ps : List Piece} (h : .code c ∈ ps) : c ∈ texts ps :=
  List.mem_flatMap.2 ⟨.code c, h, List.mem_singleton_self c⟩

theorem isOpening_not_blank {c : Char} (h : isOpening c = true) :
    Text.isBlank c = false ∧ Text.isIdentChar c = false := by
  simp only [isOpening, Bool.or_eq_true, beq_iff_eq] at h
  rcases h with (rfl | rfl) | rfl <;> decide

theorem isOpening_of_isClosing {c : Char} (h : isClosing c = true) : isOpening c = false := by
  simp only [isClosing, Bool.or_eq_true, beq_iff_eq] at h
  rcases h with (rfl | rfl) | rfl <;> decide

theorem takeWhile_append_of_mem {p : Char → Bool} {t : Text} {c : Char} (hc : c ∈ t) (hp : p c = false) (r : Text) :
    (t ++ r).takeWhile p = t.takeWhile p := by
  rw [List.takeWhile_append, if_neg]
  intro hlen
  have hall := List.mem_takeWhile_imp ((List.takeWhile_prefix p).eq_of_length hlen ▸ hc)
  rw [hp] at hall
  cases hall

theorem takeWhile_append_of_head {p : Char → Bool} {v : Text} (hv : ∀ c ∈ v.head?, p c = false) (t : Text) :
    (t ++ v).takeWhile p = t.takeWhile p := by
  rw [List.takeWhile_append]
  split
  · next hlen =>
    have hnil : v.takeWhile p = [] := by
      cases v with
      | nil => rfl
      | cons c v => rw [List.takeWhile_cons, hv c rfl]; rfl
    rw [hnil, List.append_nil, (List.takeWhile_prefix p).eq_of_length hlen]
  · rfl

theorem endsBlock_cons_blank {c : Char} (h : Text.isBlank c = true) (t : Text) : endsBlock (c :: t) = endsBlock t := by
  rw [endsBlock, endsBlock, Text.trimStart, Text.trimStart, List.dropWhile_cons_of_pos h]

theorem endsBlock_cons {c : Char} (h : Text.isBlank c = false) (t : Text) :
    endsBlock (c :: t) = (!isContinuation c && !continuationWords.contains ((c :: t).takeWhile Text.isIdentChar)) := by
  rw [endsBlock, Text.trimStart, List.dropWhile_cons_of_neg (by rw [h]; exact Bool.false_ne_true)]

/-- The look ahead does not go further than to a character that is neither blank nor part of a word. -/
theorem endsBlock_append {t : Text} {c : Char} (hc : c ∈ t) (hblank : Text.isBlank c = false)
    (hident : Text.isIdentChar c = false) (r r' : Text) : endsBlock (t ++ r) = endsBlock (t ++ r') := by
  induction t with
  | nil => cases hc
  | cons d t ih =>
    cases hd : Text.isBlank d with
    | true =>
      have hct : c ∈ t := (List.mem_cons.1 hc).resolve_left fun e => by rw [e, hd] at hblank; cases hblank
      rw [List.cons_append, List.cons_append, endsBlock_cons_blank hd, endsBlock_cons_blank hd, ih hct]
    | false =>
      rw [List.cons_append, List.cons_append, endsBlock_cons hd, endsBlock_cons hd, ← List.cons_append,
        ← List.cons_append, takeWhile_append_of_mem hc hident, takeWhile_append_of_mem hc hident]

theorem within_slash {d e : Nat} {ps : List Piece} {rest : Text} (h : within d ps ('/' :: rest) = some e)
    (rest' : Text) : within d ps ('/' :: rest') = some e := by
  induction ps generalizing d with
  | nil => exact h
  | cons p ps ih =>
    obtain ⟨hs, f, hf, hr⟩ := within_cons.1 h
    refine within_cons.2 ⟨?_, f, hf, ih hr⟩
    have hslash : '/' ∈ texts ps ++ ['/'] := List.mem_append_right _ List.mem_cons_self
    have hlook : endsBlock (texts ps ++ '/' :: rest') = endsBlock (texts ps ++ '/' :: rest) := by
      have happ := endsBlock_append hslash (by decide) (by decide) rest' rest
      rwa [List.append_assoc, List.append_assoc] at happ
    rw [Piece.stops, hlook]
    exact hs

/-- Where brackets are still open, what follows the pieces does not count. -/
theorem within_congr {d e : Nat} {ps : List Piece} {rest : Text} (h : within d ps rest = some (e + 1)) (rest' : Text) :
    within d ps rest' = some (e + 1) := by
  induction ps generalizing d with
  | nil => exact h
  | cons p ps ih =>
    obtain ⟨hs, f, hf, hr⟩ := within_cons.1 h
    refine within_cons.2 ⟨?_, f, hf, ih hr⟩
    cases hends : p.ends d with
    | false => rw [Piece.stops, hends, Bool.false_and]
    | true =>
      cases p with
      | code c =>
        rw [Piece.stops, hends, Bool.true_and, Bool.or_eq_false_iff] at hs
        obtain ⟨hsemi, hblock⟩ := hs
        -- a brace that closes the outermost bracket: another bracket opens behind it
        have hbrace : c = '}' ∧ d = 1 := by
          have hne : c ≠ ';' := by simpa using hsemi
          simpa [Piece.ends, hne] using hends
        obtain ⟨rfl, rfl⟩ := hbrace
        cases hf
        obtain ⟨o, ho, hm⟩ := exists_opening (depthAfter?_of_within hr) (Nat.zero_lt_succ e)
        obtain ⟨hblank, hident⟩ := isOpening_not_blank ho
        rw [Piece.stops, hends, Bool.true_and, Bool.or_eq_false_iff,
          endsBlock_append (mem_texts_of_code hm) hblank hident rest' rest]
        exact ⟨hsemi, hblock⟩
      | _ => cases hends

/-! ## The scanner -/

@[simp] theorem map_char_marks (p : Piece) : p.marks.map Mark.char = p.text := by
  cases p <;> simp [Piece.marks, Piece.text, Function.comp_def]

@[simp] theorem map_char_flatMap_marks (ps : List Piece) : (ps.flatMap Piece.marks).map Mark.char = texts ps := by
  induction ps with
  | nil => rfl
  | cons p ps ih => rw [List.flatMap_cons, List.map_append, map_char_marks, ih, texts_cons]

namespace Scanner

theorem run_open {s : Scanner} {p : Piece} {d : Nat} {rest : List Mark}
    (hstop : p.stops s.depth (rest.map Mark.char) = false) (hd : p.depth? s.depth = some d)
    (hs : s.current.isSome = true) : s.run (p.marks ++ rest) = ({ s with depth := d }.passed p.text).run rest := by
  cases hends : p.ends s.depth with
  | false => exact run_piece (Piece.inside?_eq_some.2 ⟨hends, hd⟩) hs rest
  | true =>
    cases p with
    | code c =>
      rw [Piece.stops, hends, Bool.true_and, Bool.or_eq_false_iff] at hstop
      obtain ⟨hsemi, hblock⟩ := hstop
      have hbrace : c = '}' ∧ s.depth = 1 := by
        have hne : c ≠ ';' := by simpa using hsemi
        simpa [Piece.ends, hne] using hends
      obtain ⟨rfl, hone⟩ := hbrace
      rw [hone] at hd
      cases hd
      have hstep : s.stepCode '}' rest = ([], { s with depth := 0 }.passed ['}']) := by
        rw [stepCode, if_neg (by decide), if_pos (by decide), if_neg (by rw [hblock]; simp)]
        simp [passed, continued, Text.byteLength, hone]
      rw [Piece.marks, List.singleton_append, run, step, hstep]
      rfl
    | _ => cases hends

theorem run_within {s : Scanner} {ps : List Piece} {d : Nat} {rest : List Mark}
    (h : within s.depth ps (rest.map Mark.char) = some d) (hs : s.current.isSome = true) :
    s.run (ps.flatMap Piece.marks ++ rest) = ({ s with depth := d }.passed (texts ps)).run rest := by
  induction ps generalizing s with
  | nil =>
    cases h
    rw [texts_nil, passed_nil]
    rfl
  | cons p ps ih =>
    obtain ⟨hstop, e, he, hr⟩ := within_cons.1 h
    have hnext : within ({ s with depth := e }.passed p.text).depth ps (rest.map Mark.char) = some d := hr
    have hmarks : (ps.flatMap Piece.marks ++ rest).map Mark.char = texts ps ++ rest.map Mark.char := by
      rw [List.map_append, map_char_flatMap_marks]
    rw [List.flatMap_cons, List.append_assoc, run_open (by rw [hmarks]; exact hstop) he hs,
      ih hnext (by simpa using hs), texts_cons, passed_append]
    rfl

/-- A brace that closes the outermost bracket completes the open statement where what follows does not go on. -/
theorem run_brace {s : Scanner} {o : OpenStatement} (ho : s.current = some o) (h : s.depth ≤ 1) {rest : List Mark}
    (hrest : endsBlock (rest.map Mark.char) = true) :
    s.run (⟨'}', .code⟩ :: rest) =
      ⟨o.start, o.read.reverse ++ ['}']⟩ :: (⟨s.offset + 1, 0, none⟩ : Scanner).run rest := by
  have hstep : s.stepCode '}' rest = ([⟨o.start, o.read.reverse ++ ['}']⟩], ⟨s.offset + 1, 0, none⟩) := by
    rw [stepCode, if_neg (by decide), if_pos (by decide), if_pos (by simp [hrest, h])]
    simp only [continued, ho, Option.map_some, Option.toList_some, OpenStatement.span, List.reverse_cons]
    rfl
  rw [run, step, hstep]
  rfl

theorem extended_started (s : Scanner) (c : Char) : s.started.extended c = s.extended c := by
  cases s with
  | mk offset depth current => cases current <;> rfl

/-- A piece that is neither a blank nor a comment starts a statement. -/
theorem run_started {s : Scanner} {p : Piece} (hp : p.isSpacing = false)
    (hcode : ∀ c, p = .code c → isClosing c = false ∧ c ≠ ';') (rest : List Mark) :
    s.run (p.marks ++ rest) = s.started.run (p.marks ++ rest) := by
  cases p with
  | code c =>
    obtain ⟨hclose, hsemi⟩ := hcode c rfl
    have hblank : Text.isAsciiBlank c = false := hp
    have hstep : s.stepCode c rest = s.started.stepCode c rest := by
      simp only [stepCode, hclose, hblank, extended_started, hsemi, false_and, if_false, Bool.false_eq_true]
      rfl
    rw [Piece.marks, List.singleton_append, run, run, step, step, hstep]
  | literal quote body =>
    rw [Piece.marks, List.map_cons, List.cons_append, run, run, step, step]
    simp only [extended_started]
    rfl
  | lineComment body => cases hp
  | blockComment body => cases hp

end Scanner

/-! ## The statements of a balanced script -/

theorem reads_nil_of_reads {ps : List Piece} {rest : Text} (h : reads ps rest = true) : reads ps [] = true := by
  induction ps with
  | nil => rfl
  | cons p ps ih =>
    obtain ⟨hp, hs, hps⟩ := reads_cons.1 h
    refine reads_cons.2 ⟨hp, fun e => ?_, ih hps⟩
    have ho := hs e
    rw [opensComment_append] at ho
    rw [List.append_nil]
    split at ho
    · next hnil =>
      rw [hnil]
      rfl
    · exact ho

/-- Pieces that can be a statement: they end in front of a semicolon or of the end of the script, or at a brace. -/
structure IsSpan (qs : List Piece) : Prop where
  closed : reads qs [] = true
  ended : (∃ rest, within 0 qs rest = some 0) ∨ ∃ ps rest, qs = ps ++ [.code '}'] ∧ within 0 ps ('}' :: rest) = some 1

theorem IsSpan.depthAfter? {qs : List Piece} (h : IsSpan qs) : depthAfter? 0 qs = some 0 := by
  rcases h.ended with ⟨rest, hin⟩ | ⟨ps, rest, rfl, hin⟩
  · exact depthAfter?_of_within hin
  · exact depthAfter?_append.2 ⟨1, depthAfter?_of_within hin, by decide⟩

theorem IsSpan.within_front {ps qs : List Piece} (h : IsSpan (ps ++ qs)) (hqs : qs ≠ []) :
    ∃ r d, within 0 ps (texts qs ++ r) = some d ∧ Script.depthAfter? d qs = some 0 := by
  rcases h.ended with ⟨r, hin⟩ | ⟨vs, r, hvs, hin⟩
  · obtain ⟨d, hd, hclose⟩ := within_append.1 hin
    exact ⟨r, d, hd, depthAfter?_of_within hclose⟩
  · rcases List.eq_nil_or_concat qs with rfl | ⟨qs, q, rfl⟩
    · exact absurd rfl hqs
    · rw [List.concat_eq_append, ← List.append_assoc] at hvs
      obtain ⟨rfl, hq⟩ := List.append_inj' hvs rfl
      cases hq
      obtain ⟨d, hd, hclose⟩ := within_append.1 hin
      refine ⟨r, d, ?_, ?_⟩
      · rw [List.concat_eq_append, texts_append, List.append_assoc]
        exact hd
      · rw [List.concat_eq_append]
        exact depthAfter?_append.2 ⟨1, depthAfter?_of_within hclose, by decide⟩

theorem Piece.depth?_of_isSpacing {p : Piece} (h : p.isSpacing = true) (d : Nat) : p.depth? d = some d := by
  cases p with
  | code c =>
    obtain ⟨ho, hc, -⟩ := Scanner.not_bracket_of_isAsciiBlank h
    rw [Piece.depth?, if_neg (by simp [ho]), if_neg (by simp [hc])]
  | literal quote body => cases h
  | lineComment body => rfl
  | blockComment body => rfl

/-- A statement made of pieces. -/
def Span.IsOfPieces (sp : Span) : Prop := ∃ qs, texts qs = sp.text ∧ IsSpan qs

namespace Scanner

/-- The scanner has the pieces `qs` in the open statement, and `ps` in front of it. -/
structure Holds (s : Scanner) (qs ps : List Piece) : Prop where
  current : s.current.map (·.read.reverse) = some (texts qs)
  open? : within 0 qs (texts ps) = some s.depth
  closed : reads (qs ++ ps) [] = true

/-- In front of the pieces `ps` no statement is open, or one made of pieces. -/
def Knows (s : Scanner) (ps : List Piece) : Prop := s.current = none ∧ s.depth = 0 ∨ ∃ qs, s.Holds qs ps

/-- The piece `p` completes statements made of pieces, and leaves the scanner in front of `ps` at depth `d`. -/
def Reads (s : Scanner) (p : Piece) (ps : List Piece) (d : Nat) : Prop :=
  ∃ (done : List Span) (s' : Scanner),
    s.run (p.marks ++ ps.flatMap Piece.marks) = done ++ s'.run (ps.flatMap Piece.marks) ∧
      (∀ sp ∈ done, sp.IsOfPieces) ∧ s'.depth = d ∧ s'.Knows ps

section
variable {s : Scanner} {ps qs : List Piece} {p : Piece} {d : Nat}

theorem Holds.passed (h : s.Holds qs (p :: ps)) (hstop : p.stops s.depth (texts ps) = false)
    (hd : p.depth? s.depth = some d) : Holds ({ s with depth := d }.passed p.text) (qs ++ [p]) ps := by
  obtain ⟨o, ho, hread⟩ := Option.map_eq_some_iff.1 h.current
  refine ⟨?_, within_append.2 ⟨s.depth, ?_, within_cons.2 ⟨hstop, d, hd, rfl⟩⟩, ?_⟩
  · simp [Scanner.passed, ho, hread, texts_append]
  · rw [texts_cons, texts_nil, List.append_nil]
    exact h.open?
  · rw [List.append_assoc]
    exact h.closed

theorem holds_started (hn : s.current = none) (h0 : s.depth = 0) (hps : reads ps [] = true) :
    s.started.Holds [] ps := by
  refine ⟨by simp [Scanner.started, hn], ?_, hps⟩
  show within 0 [] (texts ps) = some s.depth
  rw [h0]
  rfl

theorem reads_of_holds (h : s.Holds qs (p :: ps)) (hd : p.depth? s.depth = some d) : s.Reads p ps d := by
  obtain ⟨o, ho, hread⟩ := Option.map_eq_some_iff.1 h.current
  have hqs := reads_nil_of_reads (reads_append.1 h.closed).1
  cases hstop : p.stops s.depth (texts ps) with
  | false =>
    refine ⟨[], _, run_open (by rw [map_char_flatMap_marks]; exact hstop) hd (by rw [ho]; rfl), ?_, rfl,
      .inr ⟨_, h.passed hstop hd⟩⟩
    exact fun _ hsp => (List.not_mem_nil hsp).elim
  | true =>
    rcases Piece.stops_iff.1 hstop with ⟨rfl, h0⟩ | ⟨rfl, h1, hblock⟩
    · rw [h0] at hd
      cases hd
      refine ⟨s.pending, _, run_semicolon h0 _, fun sp hsp => ?_, rfl, .inl ⟨rfl, rfl⟩⟩
      simp only [pending, ho, Option.map_some, Option.toList_some, List.mem_singleton] at hsp
      exact ⟨qs, by rw [hsp, ← hread]; rfl, hqs, .inl ⟨_, h0 ▸ h.open?⟩⟩
    · rw [h1] at hd
      cases hd
      have hrun := run_brace ho (by omega) (by rw [map_char_flatMap_marks]; exact hblock)
      refine ⟨[⟨o.start, o.read.reverse ++ ['}']⟩], _, hrun, fun sp hsp => ?_, rfl, .inl ⟨rfl, rfl⟩⟩
      have hbrace : reads (qs ++ [.code '}']) [] = true := by
        have hall : reads ((qs ++ [.code '}']) ++ ps) [] = true := by
          rw [List.append_assoc]
          exact h.closed
        exact reads_nil_of_reads (reads_append.1 hall).1
      rw [List.mem_singleton.1 hsp]
      exact ⟨qs ++ [.code '}'], by simp [texts_append, Piece.text, hread], hbrace, .inr ⟨qs, _, rfl, h1 ▸ h.open?⟩⟩

theorem reads_of_none (hn : s.current = none) (h0 : s.depth = 0) (hps : reads (p :: ps) [] = true)
    (hd : p.depth? s.depth = some d) : s.Reads p ps d := by
  cases hspacing : p.isSpacing with
  | true =>
    have hone : [p].all Piece.isSpacing = true := by simp [hspacing]
    have hrun : s.run (p.marks ++ ps.flatMap Piece.marks) = (s.passed p.text).run (ps.flatMap Piece.marks) := by
      simpa using run_spacing hone hn (ps.flatMap Piece.marks)
    rw [Piece.depth?_of_isSpacing hspacing] at hd
    cases hd
    refine ⟨[], s.passed p.text, hrun, fun _ hsp => (List.not_mem_nil hsp).elim, rfl, .inl ⟨?_, h0⟩⟩
    rw [passed, hn]
    rfl
  | false =>
    by_cases hsemi : p = .code ';'
    · subst hsemi
      rw [h0] at hd
      cases hd
      refine ⟨s.pending, _, run_semicolon h0 _, fun sp hsp => ?_, rfl, .inl ⟨rfl, rfl⟩⟩
      simp [pending, hn] at hsp
    · have hcode : ∀ c, p = .code c → isClosing c = false ∧ c ≠ ';' := by
        rintro c rfl
        refine ⟨?_, fun e => hsemi (by rw [e])⟩
        -- a bracket that closes here would bring the depth below zero
        rw [h0, Piece.depth?] at hd
        cases hclose : isClosing c with
        | false => rfl
        | true =>
          have ho : isOpening c = false := isOpening_of_isClosing hclose
          rw [if_neg (by rw [ho]; exact Bool.false_ne_true), if_pos hclose, if_pos rfl] at hd
          cases hd
      have hstarted : s.started.Reads p ps d := reads_of_holds (holds_started hn h0 hps) hd
      rwa [Reads, ← run_started hspacing hcode] at hstarted

/-- What the scanner completes is made of pieces of the script. -/
theorem isOfPieces_of_mem_run (hps : reads ps [] = true) (hd : depthAfter? s.depth ps = some 0) (hs : s.Knows ps)
    {sp : Span} (hsp : sp ∈ s.run (ps.flatMap Piece.marks)) : sp.IsOfPieces := by
  induction ps generalizing s with
  | nil =>
    have h0 : s.depth = 0 := Option.some.inj hd
    rcases hs with ⟨hn, -⟩ | ⟨qs, hcurrent, hopen, hclosed⟩
    · simp [run, pending, hn] at hsp
    · obtain ⟨o, ho, hread⟩ := Option.map_eq_some_iff.1 hcurrent
      simp only [List.flatMap_nil, run, pending, ho, Option.map_some, Option.toList_some, List.mem_singleton] at hsp
      rw [List.append_nil] at hclosed
      rw [h0] at hopen
      exact ⟨qs, by rw [hsp, ← hread]; rfl, hclosed, .inl ⟨[], hopen⟩⟩
  | cons p ps ih =>
    obtain ⟨d, hp, hafter⟩ := depthAfter?_cons.1 hd
    obtain ⟨done, s', hrun, hdone, rfl, hs'⟩ : s.Reads p ps d := by
      rcases hs with ⟨hn, h0⟩ | ⟨qs, h⟩
      · exact reads_of_none hn h0 hps hp
      · exact reads_of_holds h hp
    rw [List.flatMap_cons, hrun, List.mem_append] at hsp
    exact hsp.elim (hdone sp) (ih (reads_cons.1 hps).2.2 hafter hs')

end

end Scanner

/-- Each statement of a balanced script is made of pieces of the script. -/
theorem isOfPieces_of_mem_spans {t : Text} (h : IsBalanced t) {sp : Span} (hsp : sp ∈ spans t) :
    sp.IsOfPieces := by
  obtain ⟨ps, rfl, hr, hd⟩ := h
  have hmarks : marks (texts ps) = ps.flatMap Piece.marks := by
    simpa [marks, marksFrom] using marksFrom_texts hr
  rw [spans, hmarks] at hsp
  exact Scanner.isOfPieces_of_mem_run hr hd (.inl ⟨rfl, rfl⟩) hsp

end ThriftModules.Script
