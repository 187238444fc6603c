import ThriftModules.Proofs.Script.Jumps
import ThriftModules.Proofs.Script.Position
import ThriftModules.Proofs.Script.Transparent

/-!
# The scan by byte offsets reaches its end

No access of the scan by byte offsets fails, and it reads the statements that the scan by characters reads.

* `step_literal`, `step_comment`, `step_ascii`, `step_high` : one step, over a literal, a comment or a byte of code;
* `State.of` : the scan by bytes where a scan by characters stands;
* `stepCode_eq`, `exists_run_lexeme`, `run_lexemes` : the two scans side by side, over a character, a lexeme and a
  script;
* `statements_eq_ok` : every script is scanned to its end.
-/

namespace ThriftModules.Script.ByteScan

set_option autoImplicit false

open Text.Utf8 (encode)

/-! ## Steps -/

section
variable {script : Text} {bytes bs : List UInt8} {s : State} {b : UInt8} {c : Char} {t r : Text}

theorem step_comment (hl : (Lexeme.comment t).IsRead r.head?) (h : bytes.drop s.offset = encode t ++ encode r) :
    step script bytes s = .ok { s with offset := s.offset + Text.byteLength t } := by
  have hopens : ∀ {d : Char} {u : Text}, d.toNat < 128 → t = '/' :: d :: u →
      byteAt bytes s.offset = .ok '/'.toUInt8 ∧ bytes[s.offset + 1]? = some d.toUInt8 := by
    rintro d u hd rfl
    rw [Text.Utf8.encode_cons_ascii (by decide), Text.Utf8.encode_cons_ascii hd, List.cons_append,
      List.cons_append] at h
    exact ⟨byteAt_eq_ok.2 (getElem?_of_drop h), getElem?_of_drop (drop_succ h)⟩
  have hblock : ∀ {u : Text}, t = '/' :: '*' :: u →
      blockCommentEnd bytes s.offset = .ok (s.offset + Text.byteLength t) →
      step script bytes s = .ok { s with offset := s.offset + Text.byteLength t } := by
    intro u ht hstop
    obtain ⟨hslash, hstar⟩ := hopens (by decide) ht
    rw [step, hslash, ok_bind, if_neg (by rw [hstar]; decide), if_pos ⟨rfl, hstar⟩, hstop]
    rfl
  generalize hnext : r.head? = next at hl
  cases hl with
  | @lineComment body _ hb hn =>
    obtain ⟨hslash, hslash'⟩ := hopens (by decide) rfl
    have hfeed : ∀ c ∈ '/' :: '/' :: body, c ≠ '\n' := by
      rw [List.any_eq_false] at hb
      exact List.forall_mem_cons.2 ⟨by decide, List.forall_mem_cons.2 ⟨by decide, fun c hc => by simpa using hb c hc⟩⟩
    have hr : r = [] ∨ r.head? = some '\n' := by rwa [← List.head?_eq_none_iff, hnext]
    rw [step, hslash, ok_bind, if_pos ⟨rfl, hslash'⟩, lineCommentEnd_lexeme hfeed (List.cons_ne_nil _ _) hr h]
    rfl
  | blockComment hb => exact hblock rfl (blockCommentEnd_closed hb h)
  | openComment hb =>
    obtain rfl := List.head?_eq_none_iff.1 hnext
    exact hblock rfl (blockCommentEnd_open hb (h.trans (List.append_nil _)))

theorem step_literal (hl : (Lexeme.literal t).IsRead r.head?) (h : bytes.drop s.offset = encode t ++ encode r) :
    step script bytes s = .ok { s.opened with offset := s.offset + Text.byteLength t } := by
  have hstop := literalEnd_lexeme hl h
  obtain ⟨q, u, rfl, hq⟩ := hl.exists_literal
  have hascii := toNat_lt_of_isQuote hq
  rw [Text.Utf8.encode_cons_ascii hascii, List.cons_append] at h
  have hslash : q.toUInt8 ≠ '/'.toUInt8 := by
    intro he
    rw [(Text.Utf8.toUInt8_inj hascii (by decide)).1 he] at hq
    exact absurd hq (by decide)
  rw [step, byteAt_eq_ok.2 (getElem?_of_drop h), ok_bind, if_neg fun e => hslash e.1, if_neg fun e => hslash e.1,
    Text.Utf8.ofUInt8_toUInt8 hascii, if_pos hq, hstop]
  rfl

theorem step_ascii (hc : c.toNat < 128) (hl : (Lexeme.code c).IsRead r.head?)
    (h : bytes.drop s.offset = c.toUInt8 :: encode r) :
    step script bytes s = stepCode script s c >>= fun next => .ok { next with offset := s.offset + 1 } := by
  obtain ⟨hquote, hslash⟩ : Text.isQuote c = false ∧ (c = '/' → r.head? ≠ some '/' ∧ r.head? ≠ some '*') := by
    cases hl with
    | code hq hs => exact ⟨hq, hs⟩
  have hnext : ∀ d : Char, d.toNat < 128 → r.head? ≠ some d → bytes[s.offset + 1]? ≠ some d.toUInt8 := by
    intro d hd hne he
    rw [← List.head?_drop, drop_succ h] at he
    exact hne (Text.Utf8.head?_encode hd he)
  have hopens : ∀ d : Char, d.toNat < 128 → (c = '/' → r.head? ≠ some d) →
      ¬(c.toUInt8 = '/'.toUInt8 ∧ bytes[s.offset + 1]? = some d.toUInt8) := by
    rintro d hd hne ⟨he, hd'⟩
    exact hnext d hd (hne ((Text.Utf8.toUInt8_inj hc (by decide)).1 he)) hd'
  rw [step, byteAt_eq_ok.2 (getElem?_of_drop h), ok_bind, if_neg (hopens '/' (by decide) fun e => (hslash e).1),
    if_neg (hopens '*' (by decide) fun e => (hslash e).2), Text.Utf8.ofUInt8_toUInt8 hc, hquote]
  rfl

theorem not_special_of_le (h : 128 ≤ c.toNat) :
    Text.isQuote c = false ∧ isOpening c = false ∧ isClosing c = false ∧ c ≠ ';' ∧ Text.isAsciiBlank c = false := by
  have hne : ∀ d : Char, d.toNat < 128 → c ≠ d := by
    rintro d hd rfl
    exact absurd hd (Nat.not_lt_of_le h)
  have hbeq : ∀ d : Char, d.toNat < 128 → (c == d) = false := fun d hd => beq_eq_false_iff_ne.2 (hne d hd)
  refine ⟨?_, ?_, ?_, hne ';' (by decide), ?_⟩
  · simp only [Text.isQuote, hbeq '"' (by decide), hbeq '\'' (by decide), hbeq Text.backtick (by decide), Bool.or_self]
  · simp only [isOpening, hbeq '(' (by decide), hbeq '[' (by decide), hbeq '{' (by decide), Bool.or_self]
  · simp only [isClosing, hbeq ')' (by decide), hbeq ']' (by decide), hbeq '}' (by decide), Bool.or_self]
  · simp only [Text.isAsciiBlank, hbeq ' ' (by decide), hbeq '\t' (by decide), hbeq '\n' (by decide),
      hbeq '\x0c' (by decide), hbeq '\r' (by decide), Bool.or_self]

theorem step_high (hb : 128 ≤ b.toNat) (h : bytes.drop s.offset = b :: bs) :
    step script bytes s = .ok { s.opened with offset := s.offset + 1 } := by
  have hslash : b ≠ '/'.toUInt8 := by
    rintro rfl
    exact absurd hb (by decide)
  obtain ⟨hquote, hopening, hclosing, hsemi, hblank⟩ := not_special_of_le (c := Char.ofUInt8 b) hb
  rw [step, byteAt_eq_ok.2 (getElem?_of_drop h), ok_bind, if_neg fun e => hslash e.1, if_neg fun e => hslash e.1,
    hquote, stepCode, hopening, hclosing, hblank]
  simp [hsemi]
  rfl

/-! ## Runs -/

theorem run_of_step {next : State} (hs : s.offset < bytes.length) (h : step script bytes s = .ok next) :
    run script bytes s = run script bytes next := by
  rw [run, dif_pos hs]
  split
  · next s' hs' => rw [h] at hs'; cases hs'; rfl
  · next e he => rw [h] at he; cases he

theorem run_high (xs : List UInt8) (hb : 128 ≤ b.toNat) (hxs : ∀ x ∈ xs, 128 ≤ x.toNat)
    (h : bytes.drop s.offset = b :: xs ++ bs) :
    run script bytes s = run script bytes { s.opened with offset := s.offset + (xs.length + 1) } := by
  induction xs generalizing b s with
  | nil => exact run_of_step (lt_of_drop h) (step_high hb h)
  | cons x xs ih =>
    have hrest := ih (s := { s.opened with offset := s.offset + 1 }) (hxs x List.mem_cons_self)
      (fun y hy => hxs y (List.mem_cons_of_mem x hy)) (drop_succ h)
    have hoffset : s.offset + 1 + (xs.length + 1) = s.offset + ((x :: xs).length + 1) := by
      rw [List.length_cons]
      omega
    rw [run_of_step (lt_of_drop h) (step_high hb h), hrest, ← hoffset]
    rfl

end

/-! ## The two scans side by side -/

/-- The scan by bytes where a scan by characters stands that has read the given statements. -/
def State.of (s : Scanner) (done : List Text) : State :=
  ⟨s.offset, s.depth, s.current.map OpenStatement.start, done⟩

section
variable {script front r : Text} {s : Scanner} {done : List Text} {c : Char}

theorem opened_of (s : Scanner) (done : List Text) : (State.of s done).opened = State.of s.started done := by
  cases s with
  | mk offset depth current => cases current <;> rfl

theorem endsBlockAt_eq (hscript : script = front ++ r) :
    endsBlockAt script (Text.byteLength front) = .ok (endsBlock r) := by
  have hrest : slice script (Text.byteLength front) (Text.byteLength script) = .ok r :=
    slice_eq_ok_iff.2 ⟨front, [], by rw [hscript, List.append_nil], rfl, by rw [hscript]⟩
  rw [endsBlockAt, hrest, ok_bind, endsBlock]
  cases htrim : Text.trimStart r with
  | nil => rfl
  | cons c t =>
    have hword : slice (c :: t) 0 (Text.byteLength ((c :: t).takeWhile Text.isIdentChar)) =
        .ok ((c :: t).takeWhile Text.isIdentChar) :=
      slice_eq_ok_iff.2 ⟨[], (c :: t).dropWhile Text.isIdentChar, List.takeWhile_append_dropWhile.symm, rfl, rfl⟩
    simp only [hword, ok_bind]
    split
    · next hcontinue => rw [hcontinue]; rfl
    · next hcontinue => rw [Bool.eq_false_iff.2 hcontinue]; rfl

/-- The open statement, which ends where the scan stands, is a slice of the script. -/
theorem push_eq (state : State) (h : s.HasRead front) (hscript : script = front ++ r)
    (hstart : state.start = s.current.map OpenStatement.start) :
    state.push script (Text.byteLength front) =
      .ok { state with start := none, statements := state.statements ++ trimmedTexts s.pending } := by
  obtain ⟨offset, depth, start, done⟩ := state
  cases hs : s.current with
  | none =>
    obtain rfl : start = none := by rw [hs] at hstart; exact hstart
    rw [Scanner.pending, hs]
    simp [State.push, trimmedTexts]
    rfl
  | some o =>
    obtain rfl : start = some o.start := by rw [hs] at hstart; exact hstart
    obtain ⟨a, hfront, ha⟩ := h.current o hs
    have htext : slice script o.start (Text.byteLength front) = .ok o.read.reverse :=
      slice_eq_ok_iff.2 ⟨a, r, by rw [hscript, hfront, List.append_assoc], ha, by rw [hfront]⟩
    have hpending : trimmedTexts s.pending =
        if Text.trim o.read.reverse = [] then [] else [Text.trim o.read.reverse] := by
      rw [Scanner.pending, hs]
      exact trimmedTexts_cons o.span []
    rw [hpending]
    simp only [State.push, htext, ok_bind]
    split
    · rw [List.append_nil]
      rfl
    · rfl

theorem start_extended (s : Scanner) (done : List Text) (c : Char) :
    (State.of s done).opened.start = some (s.extended c).start := by
  rw [opened_of]
  exact (congrArg (Option.map OpenStatement.start) (Scanner.some_extended s c)).symm

theorem start_continued (s : Scanner) (c : Char) :
    (s.continued c).map OpenStatement.start = s.current.map OpenStatement.start := by
  rw [Scanner.continued, Option.map_map]
  rfl

/-- A closing brace completes a statement in both scans, or in none. -/
theorem stepCode_closing (h : s.HasRead front) (hc : c.toNat < 128) (hopen : isOpening c = false)
    (hclose : isClosing c = true) (rest : List Mark) (hscript : script = front ++ c :: rest.map Mark.char) :
    stepCode script (State.of s done) c =
      .ok { State.of (s.stepCode c rest).2 (done ++ trimmedTexts (s.stepCode c rest).1) with offset := s.offset } := by
  let closed : State := { State.of s done with depth := s.depth - 1 }
  have hbehind : script = (front ++ [c]) ++ rest.map Mark.char := by rw [hscript, List.append_cons]
  have hpassed := h.passed [c]
  have hafter : s.offset + 1 = Text.byteLength (front ++ [c]) := by
    rw [← hpassed.offset, ← Text.Utf8.utf8Size_ascii hc]
    rfl
  have hstep : stepCode script (State.of s done) c =
      if c = '}' ∧ s.depth - 1 = 0 then
        if endsBlock (rest.map Mark.char) then closed.push script (Text.byteLength (front ++ [c])) else .ok closed
      else .ok closed := by
    rw [stepCode, hopen, hclose]
    show (if c = '}' ∧ s.depth - 1 = 0 then
      (endsBlockAt script (s.offset + 1) >>= fun ends => if ends then closed.push script (s.offset + 1) else .ok closed)
      else .ok closed) = _
    rw [hafter, endsBlockAt_eq hbehind, ok_bind]
  have hgoes : closed = { State.of ⟨s.offset + c.utf8Size, s.depth - 1, s.continued c⟩ (done ++ trimmedTexts []) with
      offset := s.offset } := by
    show closed = State.mk s.offset (s.depth - 1) ((s.continued c).map OpenStatement.start) (done ++ [])
    rw [start_continued, List.append_nil]
    rfl
  have hcond : (c == '}' && decide (s.depth ≤ 1) && endsBlock (rest.map Mark.char)) = true ↔
      (c = '}' ∧ s.depth - 1 = 0) ∧ endsBlock (rest.map Mark.char) = true := by
    rw [Nat.sub_eq_zero_iff_le]
    simp
  rw [hstep, Scanner.stepCode, hopen, hclose, if_neg Bool.false_ne_true, if_pos rfl]
  by_cases hends : (c = '}' ∧ s.depth - 1 = 0) ∧ endsBlock (rest.map Mark.char) = true
  · rw [if_pos hends.1, if_pos hends.2, if_pos (hcond.2 hends),
      push_eq closed hpassed hbehind (start_continued s c).symm]
    show Except.ok (State.mk s.offset (s.depth - 1) none _) = .ok (State.mk s.offset 0 none _)
    rw [hends.1.2]
    rfl
  · rw [if_neg (mt hcond.1 hends), ← hgoes]
    by_cases hbrace : c = '}' ∧ s.depth - 1 = 0
    · rw [if_pos hbrace, if_neg fun e => hends ⟨hbrace, e⟩]
    · rw [if_neg hbrace]

/-- Over a character of ASCII in its role as code, the two scans stay side by side. -/
theorem stepCode_eq (h : s.HasRead front) (hc : c.toNat < 128) (rest : List Mark)
    (hscript : script = front ++ c :: rest.map Mark.char) :
    stepCode script (State.of s done) c =
      .ok { State.of (s.stepCode c rest).2 (done ++ trimmedTexts (s.stepCode c rest).1) with offset := s.offset } := by
  have hopened : ∀ depth offset, Except.ok (ε := Fault) { (State.of s done).opened with depth := depth } =
      .ok { State.of ⟨offset, depth, some (s.extended c)⟩ (done ++ trimmedTexts []) with offset := s.offset } := by
    intro depth offset
    show Except.ok (State.mk s.offset depth (State.of s done).opened.start done) =
      .ok (State.mk s.offset depth (some (s.extended c).start) (done ++ []))
    rw [start_extended s done c, List.append_nil]
  cases hopen : isOpening c with
  | true =>
    rw [stepCode, Scanner.stepCode, hopen]
    exact hopened _ _
  | false =>
    cases hclose : isClosing c with
    | true => exact stepCode_closing h hc hopen hclose rest hscript
    | false =>
      rw [stepCode, Scanner.stepCode, hopen, hclose, if_neg Bool.false_ne_true, if_neg Bool.false_ne_true,
        if_neg Bool.false_ne_true, if_neg Bool.false_ne_true]
      by_cases hsemi : c = ';' ∧ s.depth = 0
      · have hpush := push_eq (State.of s done) h hscript rfl
        rw [← h.offset] at hpush
        rw [if_pos hsemi, if_pos (show c = ';' ∧ (State.of s done).depth = 0 from hsemi)]
        refine hpush.trans ?_
        show Except.ok (State.mk s.offset s.depth none _) = .ok (State.mk s.offset 0 none _)
        rw [hsemi.2]
        rfl
      · rw [if_neg hsemi, if_neg (show ¬(c = ';' ∧ (State.of s done).depth = 0) from hsemi)]
        cases hblank : Text.isAsciiBlank c with
        | true =>
          show Except.ok (State.mk s.offset s.depth (s.current.map OpenStatement.start) done) =
            .ok (State.mk s.offset s.depth ((s.continued c).map OpenStatement.start) (done ++ []))
          rw [start_continued, List.append_nil]
        | false => exact hopened _ _

theorem of_passed (s : Scanner) (done : List Text) (t : Text) :
    State.of (s.passed t) done = { State.of s done with offset := s.offset + Text.byteLength t } := by
  cases s with
  | mk offset depth current => cases current <;> rfl

/-- Over a character outside ASCII, the two scans stay side by side, the one by bytes in as many steps as it has
bytes. -/
theorem run_high_of (done : List Text) (hc : 128 ≤ c.toNat) (rest : List Mark)
    (hdrop : (encode script).drop s.offset = encode [c] ++ encode r) :
    s.run (⟨c, .code⟩ :: rest) = (s.started.passed [c]).run rest ∧
      run script (encode script) (State.of s done) =
        run script (encode script) (State.of (s.started.passed [c]) done) := by
  obtain ⟨-, hopen, hclose, hsemi, hblank⟩ := not_special_of_le hc
  have hstep : s.stepCode c rest = ([], s.started.passed [c]) := by
    rw [Scanner.stepCode, hopen, hclose, hblank, if_neg Bool.false_ne_true, if_neg Bool.false_ne_true,
      if_neg fun e => hsemi e.1, if_neg Bool.false_ne_true, Scanner.some_extended]
    rfl
  refine ⟨by rw [Scanner.run, Scanner.step, hstep]; rfl, ?_⟩
  obtain ⟨b, high, hbytes, hsize, -⟩ := Text.Utf8.exists_encodeChar c
  have hall := Text.Utf8.le_of_mem_encodeChar hc
  rw [hbytes] at hall
  rw [Text.Utf8.encode_cons, hbytes, List.append_assoc] at hdrop
  have hrun : run script (encode script) (State.of s done) = _ := run_high high (hall b List.mem_cons_self)
    (fun x hx => hall x (List.mem_cons_of_mem b hx)) hdrop
  rw [hrun, opened_of, hsize, of_passed]
  rfl

/-- Over one lexeme, the two scans stay side by side. -/
theorem exists_run_lexeme (done : List Text) {l : Lexeme} (h : s.HasRead front) (hl : l.IsRead r.head?)
    (hscript : script = front ++ (l.text ++ r)) (rest : List Mark) (hrest : rest.map Mark.char = r) :
    ∃ out s', Scanner.HasRead s' (front ++ l.text) ∧ s.run (l.marks ++ rest) = out ++ s'.run rest ∧
      run script (encode script) (State.of s done) =
        run script (encode script) (State.of s' (done ++ trimmedTexts out)) := by
  have hdrop : (encode script).drop (State.of s done).offset = encode l.text ++ encode r := by
    show (encode script).drop s.offset = _
    rw [h.offset, ← Text.Utf8.length_encode, hscript, Text.Utf8.encode_append, Text.Utf8.encode_append, List.drop_left]
  have hlt : (State.of s done).offset < (encode script).length := by
    have hne := List.append_ne_nil_of_left_ne_nil (Text.Utf8.encode_ne_nil hl.text_ne_nil) (encode r)
    rw [length_of_drop hdrop hne]
    exact Nat.lt_add_of_pos_right (List.length_pos_iff.2 hne)
  have hnil : done ++ trimmedTexts [] = done := List.append_nil done
  cases l with
  | comment t =>
    refine ⟨[], s.passed t, h.passed t, Scanner.run_comment s t rest, ?_⟩
    rw [run_of_step hlt (step_comment hl hdrop), hnil, of_passed]
    rfl
  | literal t =>
    refine ⟨[], s.started.passed t, h.started.passed t, ?_, ?_⟩
    · obtain ⟨q, u, rfl, -⟩ := hl.exists_literal
      have hopens : ∀ m : Mark, m.starts = true → s.run (m :: (u.map (⟨·, .literal⟩) ++ rest)) =
          s.started.run (m :: (u.map (⟨·, .literal⟩) ++ rest)) := fun m hm => Scanner.run_starts hm _
      have hrun := Scanner.run_literal (s := s.started) rfl (q :: u) rest
      exact (hopens _ rfl).trans hrun
    · rw [run_of_step hlt (step_literal hl hdrop), hnil, opened_of, of_passed]
      rfl
  | code c =>
    by_cases hc : c.toNat < 128
    · have hread := (h.step ⟨c, .code⟩ rest).1
      refine ⟨_, _, hread, rfl, ?_⟩
      have hbytes : (encode script).drop (State.of s done).offset = c.toUInt8 :: encode r := by
        rw [hdrop, Lexeme.text, Text.Utf8.encode_cons_ascii hc]
        rfl
      have hstep : step script (encode script) (State.of s done) = _ := step_ascii hc hl hbytes
      rw [stepCode_eq h hc rest (by rw [hscript, hrest]; rfl), ok_bind] at hstep
      have hoffset : (s.stepCode c rest).2.offset = s.offset + 1 := by
        refine hread.offset.trans ?_
        rw [byteLength_append, h.offset, Text.byteLength, Text.Utf8.utf8Size_ascii hc]
        rfl
      rw [run_of_step hlt hstep]
      congr 1
      show State.mk (s.offset + 1) _ _ _ = _
      rw [← hoffset]
      rfl
    · obtain ⟨hrun, hbytes⟩ := run_high_of done (Nat.le_of_not_lt hc) rest hdrop
      exact ⟨[], s.started.passed [c], h.started.passed [c], hrun, by rw [hnil]; exact hbytes⟩

/-- Over the rest of a script, the two scans read the same statements. -/
theorem run_lexemes (done : List Text) {ls : List Lexeme} (h : s.HasRead front) (hr : ReadsAs ls none)
    (hscript : script = front ++ spelling ls) :
    (run script (encode script) (State.of s done) >>= fun state =>
      state.push script (encode script).length >>= fun last => .ok last.statements) =
      .ok (done ++ trimmedTexts (s.run (marked ls))) := by
  induction ls generalizing s front done with
  | nil =>
    rw [spelling_nil, List.append_nil] at hscript
    have hend : (encode script).length = Text.byteLength front := by rw [Text.Utf8.length_encode, hscript]
    have hstop : run script (encode script) (State.of s done) = .ok (State.of s done) := by
      rw [run, dif_neg]
      show ¬s.offset < _
      rw [h.offset, hend]
      exact Nat.lt_irrefl _
    have hpush := push_eq (State.of s done) h (hscript.trans (List.append_nil _).symm) rfl
    rw [hstop, ok_bind, hend, hpush]
    rfl
  | cons l ls ih =>
    obtain ⟨hl, hls⟩ := hr
    rw [Option.or_none] at hl
    obtain ⟨out, s', hs', hrun, hbytes⟩ :=
      exists_run_lexeme done h hl hscript (marked ls) (map_char_marked ls)
    have hrest := ih (done ++ trimmedTexts out) hs' hls (by rw [hscript, List.append_assoc]; rfl)
    have htexts : trimmedTexts (out ++ s'.run (marked ls)) = trimmedTexts out ++ trimmedTexts (s'.run (marked ls)) := by
      simp only [trimmedTexts, List.map_append, List.filter_append]
    rw [hbytes, hrest, marked_cons, hrun, htexts, List.append_assoc]

end

/-- No script stops the scan by byte offsets: every byte that it reads is there, every slice that it takes stands on
characters, and it gives the statements of the script. -/
theorem statements_eq_ok (script : Text) : statements script = .ok (Script.statements script) := by
  obtain ⟨ls, rfl, hls⟩ := exists_lexemes script
  have hrun := run_lexemes [] Scanner.hasRead_start hls (List.nil_append _).symm
  rw [← marks_spelling hls] at hrun
  exact hrun

end ThriftModules.Script.ByteScan
