import ThriftModules.Proofs.Script.Position
import ThriftModules.Proofs.Script.Slices
import ThriftModules.Proofs.Script.Uncommented

/-!
# What stands in a literal or a comment

The body of a literal or a comment moves no statement boundary.

* `Enclosure` : a literal or a comment around a body, with the bodies that it may have and where it may stand;
* `Scanner.exists_run_front` : what is scanned in front of a quote or a slash does not depend on what follows it;
* `Layout` : the statements around a place of a script, whatever stands at the place;
* `exists_layout` : the statements around a literal or a comment are the same for every body.
-/

namespace ThriftModules.Script

set_option autoImplicit false

/-! ## Enclosures -/

/-- A literal or a comment, without its body. -/
inductive Enclosure where
  | literal (quote : Char)
  | blockComment
  /-- A comment up to its line feed, which is not part of it. -/
  | lineComment
deriving DecidableEq, Repr

namespace Enclosure

def text : Enclosure → Text → Text
  | literal quote, body => quote :: (body ++ [quote])
  | blockComment, body => '/' :: '*' :: (body ++ ['*', '/'])
  | lineComment, body => '/' :: '/' :: body

def lexeme : Enclosure → Text → Lexeme
  | literal quote, body => .literal (text (literal quote) body)
  | blockComment, body => .comment (text blockComment body)
  | lineComment, body => .comment (text lineComment body)

/-- The bodies that leave a literal or a comment in one piece. That of a line comment does not end with a blank, which
would not belong to a statement that ends with the comment. -/
def Allows : Enclosure → Text → Prop
  | literal quote, body => ∀ c ∈ body, c ≠ '\\' ∧ c ≠ quote ∧ (c = '\n' → quote = Text.backtick)
  | blockComment, body => Text.contains body "*/".toList = false
  | lineComment, body => (∀ c ∈ body, c ≠ '\n') ∧ ∀ c ∈ body.getLast?, Text.isBlank c = false

/-- Where a literal or a comment can stand: no comment follows a slash, and a line feed follows a line comment. -/
def Fits : Enclosure → Text → Text → Prop
  | literal quote, _, _ => Text.isQuote quote = true
  | blockComment, before, _ => before.getLast? ≠ some '/'
  | lineComment, before, after => before.getLast? ≠ some '/' ∧ after.head? = some '\n'

instance (e : Enclosure) (body : Text) : Decidable (e.Allows body) :=
  match e with
  | literal quote =>
    inferInstanceAs (Decidable (∀ c ∈ body, c ≠ '\\' ∧ c ≠ quote ∧ (c = '\n' → quote = Text.backtick)))
  | blockComment => inferInstanceAs (Decidable (Text.contains body "*/".toList = false))
  | lineComment =>
    inferInstanceAs (Decidable ((∀ c ∈ body, c ≠ '\n') ∧ ∀ c ∈ body.getLast?, Text.isBlank c = false))

instance (e : Enclosure) (before after : Text) : Decidable (e.Fits before after) :=
  match e with
  | literal quote => inferInstanceAs (Decidable (Text.isQuote quote = true))
  | blockComment => inferInstanceAs (Decidable (before.getLast? ≠ some '/'))
  | lineComment => inferInstanceAs (Decidable (before.getLast? ≠ some '/' ∧ after.head? = some '\n'))

section
variable {e : Enclosure} {before after body : Text}

@[simp] theorem text_lexeme (e : Enclosure) (body : Text) : (e.lexeme body).text = e.text body := by
  cases e <;> rfl

theorem isRead_lexeme (hfits : e.Fits before after) (hbody : e.Allows body) :
    (e.lexeme body).IsRead after.head? := by
  cases e with
  | literal quote => exact .literal hfits (Piece.isLiteralBody_of_plain hbody)
  | blockComment => exact .blockComment hbody
  | lineComment => exact .lineComment (List.any_eq_false.2 fun c hc => by simpa using hbody.1 c hc) (.inr hfits.2)

theorem exists_text_cons (hfits : e.Fits before after) :
    ∃ c, (Text.isQuote c = true ∨ c = '/') ∧ ∀ body, ∃ r, e.text body = c :: r := by
  cases e with
  | literal quote => exact ⟨quote, .inl hfits, fun body => ⟨_, rfl⟩⟩
  | blockComment => exact ⟨'/', .inr rfl, fun body => ⟨_, rfl⟩⟩
  | lineComment => exact ⟨'/', .inr rfl, fun body => ⟨_, rfl⟩⟩

theorem exists_text_concat (hfits : e.Fits before after) (hbody : e.Allows body) :
    ∃ r c, e.text body = r ++ [c] ∧ Text.isBlank c = false := by
  cases e with
  | literal quote => exact ⟨quote :: body, quote, rfl, (isIdentChar_of_opens (.inl hfits)).2.1⟩
  | blockComment => exact ⟨'/' :: '*' :: (body ++ ['*']), '/', by simp [text], by decide⟩
  | lineComment =>
    rcases List.eq_nil_or_concat body with rfl | ⟨r, c, rfl⟩
    · exact ⟨['/'], '/', rfl, by decide⟩
    · exact ⟨'/' :: '/' :: r, c, by simp [text], hbody.2 c (by simp)⟩

theorem staysApart (hfits : e.Fits before after) : StaysApart before (e.text body ++ after) := by
  cases e with
  | literal quote =>
    have hquote : Text.isQuote quote = true := hfits
    intro _
    refine opensComment_eq_false.2 ⟨?_, ?_⟩ <;> rintro ⟨⟩ <;> exact absurd hquote (by decide)
  | blockComment => exact fun hslash => absurd hslash hfits
  | lineComment => exact fun hslash => absurd hslash hfits.1

theorem marks_append (hbefore : stateAfter .code before = .code) (hfits : e.Fits before after)
    (hbody : e.Allows body) :
    marks (before ++ (e.text body ++ after)) = marks before ++ ((e.lexeme body).marks ++ marks after) := by
  have hstays : StaysApart before (e.text body ++ after) := staysApart hfits
  have hsplit := marksFrom_append_of_stateAfter (by simp) (.inl hbefore) hstays
  rw [marks, hsplit, hbefore, ← text_lexeme, marksFrom_lexeme (isRead_lexeme hfits hbody)]
  rfl

end

end Enclosure

/-! ## The scan up to a place -/

namespace Scanner

section
variable {s : Scanner} {front : Text}

/-- In front of a character that is neither blank nor part of a word, the scan does not depend on what follows it. -/
theorem exists_run_front (hs : s.HasRead front) (ms : List Mark) {c : Char} (hblank : Text.isBlank c = false)
    (hident : Text.isIdentChar c = false) :
    ∃ out s', HasRead s' (front ++ ms.map Mark.char) ∧ (∀ sp ∈ out, sp.stop ≤ s'.offset) ∧
      ∀ tail : List Mark, (tail.map Mark.char).head? = some c → s.run (ms ++ tail) = out ++ s'.run tail := by
  induction ms generalizing s front with
  | nil =>
    rw [List.map_nil, List.append_nil]
    exact ⟨[], s, hs, List.forall_mem_nil _, fun tail _ => rfl⟩
  | cons m ms ih =>
    let next := s.step m (ms ++ [⟨c, .code⟩])
    obtain ⟨hread, hstop⟩ := hs.step m (ms ++ [⟨c, .code⟩])
    obtain ⟨out, s', hs', hstop', hrun⟩ := ih hread
    rw [List.append_assoc] at hs'
    refine ⟨next.1 ++ out, s', hs', fun sp hsp => ?_, fun tail htail => ?_⟩
    · rcases List.mem_append.1 hsp with hsp | hsp
      · refine Nat.le_trans (hstop sp hsp) ?_
        rw [hs'.offset, ← List.append_assoc, byteLength_append (front ++ [m.char])]
        exact Nat.le_add_right _ _
      · exact hstop' sp hsp
    · have hstep : s.step m (ms ++ tail) = next := by
        refine step_congr ?_ s m
        obtain ⟨r, hr⟩ := List.head?_eq_some_iff.1 htail
        have hmem : c ∈ ms.map Mark.char ++ [c] := by simp
        simpa [hr] using endsBlock_append hmem hblank hident r []
      rw [List.cons_append, run, hstep, hrun tail htail, List.append_assoc]

end

end Scanner

/-! ## Layouts -/

/-- A stretch around a place of a script. -/
structure Around where
  /-- The byte offset of its first character. -/
  start : Nat
  /-- Its text up to the place. -/
  front : Text
  /-- Its text behind the place. -/
  back : Text
deriving DecidableEq, Repr

/-- The stretch with the text `mid` at the place. -/
def Around.filled (a : Around) (mid : Text) : Span := ⟨a.start, a.front ++ (mid ++ a.back)⟩

structure Layout where
  before : List Span
  around : Option Around
  /-- The stretches behind the place, at their offsets where the place is empty. -/
  after : List Span
deriving DecidableEq, Repr

namespace Layout

/-- The stretches with the text `mid` at the place. -/
def spans (l : Layout) (mid : Text) : List Span :=
  l.before ++ ((l.around.map (·.filled mid)).toList ++ l.after.map (Span.moved (Text.byteLength mid)))

def texts (l : Layout) (mid : Text) : List Text :=
  l.before.map Span.text ++
    ((l.around.map fun a => a.front ++ (mid ++ a.back)).toList ++ l.after.map Span.text)

def size (l : Layout) : Nat := l.before.length + (l.around.toList.length + l.after.length)

/-- Stretches around the place at the byte offset `n`. -/
structure StandsAt (l : Layout) (n : Nat) : Prop where
  before : ∀ s ∈ l.before, s.stop ≤ n
  around : ∀ a ∈ l.around, a.start + Text.byteLength a.front = n
  after : ∀ s ∈ l.after, n ≤ s.start

theorem text_spans (l : Layout) (mid : Text) : (l.spans mid).map Span.text = l.texts mid := by
  have hmoved : ∀ ss : List Span, (ss.map (Span.moved (Text.byteLength mid))).map Span.text = ss.map Span.text :=
    fun ss => by rw [List.map_map]; rfl
  rw [spans, texts, List.map_append, List.map_append, hmoved]
  cases l.around <;> rfl

theorem length_texts (l : Layout) (mid : Text) : (l.texts mid).length = l.size := by
  cases h : l.around with
  | none => simp [texts, size, h]
  | some a =>
    simp only [texts, size, h, List.length_append, List.length_map, Option.map_some, Option.toList_some,
      List.length_singleton]

end Layout

namespace Scanner

variable {s : Scanner} {front : Text}

/-- Where no statement is open, nothing is read in front of the offset. -/
theorem offset_le_start {n : Nat} {ms : List Mark} : ∀ sp ∈ (⟨n, 0, none⟩ : Scanner).run ms, n ≤ sp.start := by
  intro sp hsp
  rw [← Nat.zero_add n, run_none_add] at hsp
  obtain ⟨sp, -, rfl⟩ := List.mem_map.1 hsp
  exact Nat.le_add_left _ _

/-- In an open statement, text that changes no depth moves the rest, of which the statement takes in the same. -/
theorem exists_layout_open {o : OpenStatement} (hs : s.HasRead front) (ho : s.current = some o) (ls : List Lexeme) :
    ∃ l : Layout, l.StandsAt s.offset ∧ ∀ mid, (s.passed mid).run (marked ls) = l.spans mid := by
  obtain ⟨qs, rest, rfl, htakes⟩ := exists_takes s.depth ls
  let behind : Scanner := ⟨s.offset + Text.byteLength (spelling qs), 0, none⟩
  refine ⟨⟨[], some ⟨o.start, o.read.reverse, spelling qs⟩, behind.run (marked rest)⟩, ⟨List.forall_mem_nil _, ?_, ?_⟩,
    fun mid => ?_⟩
  · rintro a ⟨⟩
    rw [hs.offset]
    exact hs.stop_pending o.span (by simp [pending, ho])
  · exact fun sp hsp => Nat.le_trans (Nat.le_add_right _ _) (offset_le_start sp hsp)
  · have hpassed : (s.passed mid).current = some ⟨o.start, mid.reverse ++ o.read⟩ := by simp [passed, ho]
    have hoffset : (s.passed mid).offset + Text.byteLength (spelling qs) =
        s.offset + Text.byteLength (spelling qs) + Text.byteLength mid := Nat.add_right_comm _ _ _
    rw [marked_append, run_takes hpassed htakes, map_char_marked, hoffset, run_none_add]
    simp [Layout.spans, Around.filled, behind]

/-- The statements around a literal or a comment that a scan comes to. -/
theorem exists_layout (hs : s.HasRead front) (e : Enclosure) (ls : List Lexeme) :
    ∃ l : Layout, l.StandsAt s.offset ∧
      ∀ body, s.run ((e.lexeme body).marks ++ marked ls) = l.spans (e.text body) := by
  have hcomment : (∀ body, e.lexeme body = .comment (e.text body)) → ∃ l : Layout, l.StandsAt s.offset ∧
      ∀ body, s.run ((e.lexeme body).marks ++ marked ls) = l.spans (e.text body) := by
    intro he
    cases ho : s.current with
    | some o =>
      obtain ⟨l, hl, hrun⟩ := exists_layout_open hs ho ls
      exact ⟨l, hl, fun body => by rw [he, Lexeme.marks, run_comment, hrun]⟩
    | none =>
      -- the comment is in no statement, and all that follows it moves
      refine ⟨⟨[], none, (⟨s.offset, 0, none⟩ : Scanner).run (marked ls)⟩, ⟨List.forall_mem_nil _, ?_,
        offset_le_start⟩, fun body => ?_⟩
      · rintro a ⟨⟩
      · have hpassed : s.passed (e.text body) = ⟨s.offset + Text.byteLength (e.text body), 0, none⟩ := by
          rw [passed, ho, hs.closed ho]
          rfl
        rw [he, Lexeme.marks, run_comment, hpassed, run_none_add]
        rfl
  cases e with
  | blockComment => exact hcomment fun body => rfl
  | lineComment => exact hcomment fun body => rfl
  | literal quote =>
    obtain ⟨l, hl, hrun⟩ := exists_layout_open hs.started rfl ls
    refine ⟨l, hl, fun body => ?_⟩
    have hopens : ∀ r rest, s.run ((quote :: r).map (Mark.mk · .literal) ++ rest) =
        s.started.run ((quote :: r).map (Mark.mk · .literal) ++ rest) := fun r rest => run_starts rfl _
    rw [← hrun, Enclosure.lexeme, Lexeme.marks, Enclosure.text, hopens, run_literal (by rfl)]

end Scanner

/-! ## Trimmed layouts -/

theorem trimmed_append (ss ts : List Span) : trimmed (ss ++ ts) = trimmed ss ++ trimmed ts := by
  simp only [trimmed, List.map_append, List.filter_append]

theorem trimmed_map_moved (k : Nat) (ss : List Span) :
    trimmed (ss.map (Span.moved k)) = (trimmed ss).map (Span.moved k) := by
  have htrimmed : ∀ s : Span, (s.moved k).trimmed = s.trimmed.moved k := fun s => by
    simp only [Span.trimmed, Span.moved, Nat.add_right_comm]
  simp only [trimmed, List.map_map, List.filter_map, Function.comp_def, htrimmed]
  rfl

theorem byteLength_trimStart (t : Text) :
    Text.byteLength (t.takeWhile Text.isBlank) + Text.byteLength (Text.trimStart t) = Text.byteLength t := by
  rw [← byteLength_append, Text.trimStart, List.takeWhile_append_dropWhile]

theorem Span.trimmed_within (s : Span) : s.start ≤ s.trimmed.start ∧ s.trimmed.stop ≤ s.stop := by
  obtain ⟨b, hb, -⟩ := Text.exists_trimEnd (Text.trimStart s.text)
  have hstart := byteLength_trimStart s.text
  have hend : Text.byteLength (Text.trimStart s.text) = Text.byteLength (Text.trim s.text) + Text.byteLength b := by
    rw [Text.trim, ← byteLength_append, ← hb]
  simp only [Span.trimmed, Span.stop]
  omega

theorem exists_of_mem_trimmed {ss : List Span} {s : Span} (h : s ∈ trimmed ss) : ∃ r ∈ ss, s = r.trimmed := by
  obtain ⟨r, hr, rfl⟩ := List.mem_map.1 (List.mem_filter.1 h).1
  exact ⟨r, hr, rfl⟩

/-- The stretch without the blanks at its ends, where what stands at the place is not blank. -/
def Around.trimmed (a : Around) : Around :=
  ⟨a.start + Text.byteLength (a.front.takeWhile Text.isBlank), Text.trimStart a.front, Text.trimEnd a.back⟩

/-- Trimming stops at what stands at the place if that neither starts nor ends with a blank. -/
theorem Around.trimmed_filled (a : Around) {mid : Text} {c d : Char} {r r' : Text} (hhead : mid = c :: r)
    (hc : Text.isBlank c = false) (hlast : mid = r' ++ [d]) (hd : Text.isBlank d = false) :
    (a.filled mid).trimmed = a.trimmed.filled mid := by
  have hlead : (a.front ++ (mid ++ a.back)).takeWhile Text.isBlank = a.front.takeWhile Text.isBlank := by
    rw [hhead]
    exact Text.takeWhile_append_cons hc _ _
  have htrim : Text.trim (a.front ++ (mid ++ a.back)) = Text.trimStart a.front ++ (mid ++ Text.trimEnd a.back) := by
    have hstart : Text.trimStart (a.front ++ (mid ++ a.back)) = Text.trimStart a.front ++ (mid ++ a.back) := by
      rw [hhead]
      exact Text.trimStart_append_cons hc _ _
    rw [Text.trim, hstart, hlast]
    simpa using Text.trimEnd_append_cons hd (Text.trimStart a.front ++ r') a.back
  rw [Span.trimmed, Around.filled, hlead, htrim]
  rfl

namespace Layout

/-- The stretches of a layout without the blanks at their ends. -/
def trimmed (l : Layout) : Layout := ⟨Script.trimmed l.before, l.around.map Around.trimmed, Script.trimmed l.after⟩

variable {l : Layout}

theorem trimmed_spans {mid : Text} {c d : Char} {r r' : Text} (hhead : mid = c :: r) (hc : Text.isBlank c = false)
    (hlast : mid = r' ++ [d]) (hd : Text.isBlank d = false) :
    Script.trimmed (l.spans mid) = l.trimmed.spans mid := by
  have haround : Script.trimmed (l.around.map (·.filled mid)).toList =
      (l.trimmed.around.map (·.filled mid)).toList := by
    cases ha : l.around with
    | none => simp [trimmed, ha, Script.trimmed]
    | some a =>
      have htrimmed := a.trimmed_filled hhead hc hlast hd
      have hne : (a.trimmed.filled mid).text ≠ [] := by simp [Around.filled, hhead]
      simp [trimmed, ha, Script.trimmed, htrimmed, hne]
  rw [spans, trimmed_append, trimmed_append, trimmed_map_moved, haround]
  rfl

theorem StandsAt.trimmed {n : Nat} (h : l.StandsAt n) : l.trimmed.StandsAt n := by
  refine ⟨fun s hs => ?_, fun a ha => ?_, fun s hs => ?_⟩
  · obtain ⟨r, hr, rfl⟩ := exists_of_mem_trimmed hs
    exact Nat.le_trans r.trimmed_within.2 (h.before r hr)
  · obtain ⟨b, hb, rfl⟩ := Option.map_eq_some_iff.1 ha
    rw [← h.around b hb, ← byteLength_trimStart b.front, ← Nat.add_assoc]
    rfl
  · obtain ⟨r, hr, rfl⟩ := exists_of_mem_trimmed hs
    exact Nat.le_trans (h.after r hr) r.trimmed_within.1

end Layout

/-! ## Scripts -/

/-- What stands in a literal or a comment moves no statement boundary: the statements around it, with their places
outside of it, are the same for every body that it may have. -/
theorem slices_enclosed {e : Enclosure} {before after : Text} (hbefore : stateAfter .code before = .code)
    (hfits : e.Fits before after) :
    ∃ l : Layout, l.StandsAt (Text.byteLength before) ∧
      ∀ body, e.Allows body →
        slices (before ++ (e.text body ++ after)) = l.spans (e.text body) ∧
          statements (before ++ (e.text body ++ after)) = l.texts (e.text body) ∧
          (statements (before ++ (e.text body ++ after))).length = l.size := by
  obtain ⟨c, hopens, htext⟩ := e.exists_text_cons hfits
  obtain ⟨hident, hblank, -⟩ := isIdentChar_of_opens hopens
  obtain ⟨ls, rfl, hls⟩ := exists_lexemes after
  obtain ⟨out, s, hs, hout, hfront⟩ := Scanner.exists_run_front Scanner.hasRead_start (marks before) hblank hident
  obtain ⟨l, hl, hrun⟩ := Scanner.exists_layout hs e ls
  have hstart : s.offset = Text.byteLength before := by
    rw [hs.offset, List.nil_append, map_char_marks_self]
  let whole : Layout := ⟨out ++ l.before, l.around, l.after⟩
  have hwhole : whole.StandsAt (Text.byteLength before) := by
    rw [← hstart]
    exact ⟨List.forall_mem_append.2 ⟨hout, hl.before⟩, hl.around, hl.after⟩
  refine ⟨whole.trimmed, hwhole.trimmed, fun body hbody => ?_⟩
  have hslices : slices (before ++ (e.text body ++ spelling ls)) = whole.trimmed.spans (e.text body) := by
    obtain ⟨r, hr⟩ := htext body
    obtain ⟨r', d, hr', hd⟩ := e.exists_text_concat hfits hbody
    have hhead : (((e.lexeme body).marks ++ marked ls).map Mark.char).head? = some c := by simp [hr]
    rw [← Layout.trimmed_spans hr hblank hr' hd, slices, spans, e.marks_append hbefore hfits hbody, marks_spelling hls,
      hfront _ hhead, hrun]
    simp only [Layout.spans, whole, List.append_assoc]
  have hstatements : statements (before ++ (e.text body ++ spelling ls)) = whole.trimmed.texts (e.text body) := by
    rw [← text_slices, hslices, Layout.text_spans]
  exact ⟨hslices, hstatements, by rw [hstatements, Layout.length_texts]⟩

/-- A literal in an object, with a word in it and with what would end the statement outside of it. -/
theorem slices_enclosed_braces :
    let before := "f(); a = \x7b b: ".toList
    let after := " \x7d; g()".toList
    let e := Enclosure.literal '"'
    stateAfter .code before = .code ∧ e.Fits before after ∧ e.Allows "x".toList ∧ e.Allows "\x7d; h() //".toList ∧
      ∃ l : Layout, l.StandsAt 14 ∧ slices (before ++ (e.text "x".toList ++ after)) = l.spans "\"x\"".toList ∧
        slices (before ++ (e.text "\x7d; h() //".toList ++ after)) = l.spans "\"\x7d; h() //\"".toList := by
  intro before after e
  have hbefore : stateAfter .code before = .code := by decide +kernel
  have hfits : e.Fits before after := by decide
  have hword : e.Allows "x".toList := by decide
  have hcode : e.Allows "\x7d; h() //".toList := by decide
  obtain ⟨l, hl, hspans⟩ := slices_enclosed hbefore hfits
  exact ⟨hbefore, hfits, hword, hcode, l, hl, (hspans _ hword).1, (hspans _ hcode).1⟩

end ThriftModules.Script
