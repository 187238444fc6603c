import ThriftModules.Proofs.Script.Lexeme

/-!
# A script without its comments

* `uncommented` : a script with a line feed for each comment that ends with its line, and a space for each other one;
* `Lexeme.uncommented`, `uncommented_spelling` : it is what the lexemes give one by one;
* `ReadsAs.uncommented` : they are still read one after the other;
* `trim_uncommented_trim` : the blanks around a text do not count;
* `endsBlock_uncommented` : what goes on with a statement still does without comments.
-/

namespace ThriftModules.Script

set_option autoImplicit false

/-! ## Without comments -/

/-- Where the reader stands that takes comments out of a script. -/
inductive CommentState where
  | outside
  /-- Behind the first character of a comment. -/
  | opened
  /-- In a comment that ends with its line. -/
  | line
  /-- In a comment between two markers. -/
  | block
  /-- In such a comment, behind a star. -/
  | star
deriving DecidableEq, Repr

/-- One character; what stands for it, and the new state. -/
def CommentState.step : CommentState → Mark → Text × CommentState
  | .outside, m => if m.role = .comment then ([], .opened) else ([m.char], .outside)
  | .opened, m => if m.char = '/' then (['\n'], .line) else ([' '], .block)
  | .line, m => if m.char = '\n' then (['\n'], .outside) else ([], .line)
  | .block, m => ([], if m.char = '*' then .star else .block)
  | .star, m => ([], if m.char = '/' then .outside else if m.char = '*' then .star else .block)

/-- Characters that are entered in the given state, without their comments. -/
def uncommentedFrom (state : CommentState) : List Mark → Text
  | [] => []
  | m :: ms => (state.step m).1 ++ uncommentedFrom (state.step m).2 ms

/-- A script with a line feed for each comment that ends with its line, and a space for each other one. -/
def uncommented (t : Text) : Text := uncommentedFrom .outside (marks t)

def Lexeme.uncommented : Lexeme → Lexeme
  | .comment t => .code (if Text.startsWith t "//".toList then '\n' else ' ')
  | .code c => .code c
  | .literal t => .literal t

/-! ## Lexemes without comments -/

section
variable {ls : List Lexeme} {ms : List Mark}

theorem uncommentedFrom_map {t : Text} {r : Role} (h : r ≠ .comment) (ms : List Mark) :
    uncommentedFrom .outside (t.map (⟨·, r⟩) ++ ms) = t ++ uncommentedFrom .outside ms := by
  induction t with
  | nil => rfl
  | cons c t ih => simpa [uncommentedFrom, CommentState.step, h] using ih

theorem uncommentedFrom_slashes (ms : List Mark) :
    uncommentedFrom .outside (⟨'/', .comment⟩ :: ⟨'/', .comment⟩ :: ms) = '\n' :: uncommentedFrom .line ms := rfl

theorem uncommentedFrom_slash_star (ms : List Mark) :
    uncommentedFrom .outside (⟨'/', .comment⟩ :: ⟨'*', .comment⟩ :: ms) = ' ' :: uncommentedFrom .block ms := rfl

theorem uncommentedFrom_line {body : Text} (h : body.any (· == '\n') = false) (ms : List Mark) :
    uncommentedFrom .line (body.map (⟨·, .comment⟩) ++ ms) = uncommentedFrom .line ms := by
  induction body with
  | nil => rfl
  | cons c body ih =>
    rw [List.any_cons, Bool.or_eq_false_iff, beq_eq_false_iff_ne] at h
    simpa [uncommentedFrom, CommentState.step, h.1] using ih h.2

/-- Inside the markers of a comment nothing is left, and the reader stays there. -/
theorem exists_uncommentedFrom_block {body : Text} (h : Text.contains body "*/".toList = false) :
    ∃ state, (state = .block ∨ state = .star) ∧
      ∀ ms, uncommentedFrom .block (body.map (⟨·, .comment⟩) ++ ms) = uncommentedFrom state ms := by
  suffices hboth : ∀ entry, entry = .block ∨ entry = .star ∧ body.head? ≠ some '/' →
      ∃ state, (state = CommentState.block ∨ state = .star) ∧
        ∀ ms, uncommentedFrom entry (body.map (⟨·, .comment⟩) ++ ms) = uncommentedFrom state ms from
    hboth .block (.inl rfl)
  induction body with
  | nil => exact fun entry hentry => ⟨entry, hentry.imp_right And.left, fun ms => rfl⟩
  | cons c body ih =>
    obtain ⟨hclose, hb⟩ := Text.contains_commentEnd_cons.1 h
    intro entry hentry
    have hstep : entry.step ⟨c, .comment⟩ = ([], if c = '*' then .star else .block) := by
      rcases hentry with rfl | ⟨rfl, hc⟩
      · rfl
      · have hslash : c ≠ '/' := fun e => hc (by rw [e]; rfl)
        simp [CommentState.step, hslash]
    have hnext : (if c = '*' then CommentState.star else .block) = .block ∨
        (if c = '*' then CommentState.star else .block) = .star ∧ body.head? ≠ some '/' := by
      split
      · next hc => exact .inr ⟨rfl, hclose hc⟩
      · exact .inl rfl
    obtain ⟨state, hstate, hms⟩ := ih hb _ hnext
    refine ⟨state, hstate, fun ms => ?_⟩
    rw [List.map_cons, List.cons_append, uncommentedFrom, hstep, List.nil_append, hms]

theorem uncommentedFrom_marked (h : ReadsAs ls none) :
    uncommentedFrom .outside (marked ls) = spelling (ls.map Lexeme.uncommented) := by
  induction ls with
  | nil => rfl
  | cons l ls ih =>
    obtain ⟨hl, hls⟩ := h
    rw [marked_cons, List.map_cons, spelling_cons, ← ih hls]
    cases l with
    | code c => exact uncommentedFrom_map (t := [c]) (r := .code) nofun _
    | literal t => exact uncommentedFrom_map (r := .literal) nofun _
    | comment t =>
      rw [Option.or_none] at hl
      generalize hnext : (spelling ls).head? = next at hl
      cases hl with
      | @lineComment body _ hb hn =>
        rw [Lexeme.marks, List.map_cons, List.map_cons, List.cons_append, List.cons_append, uncommentedFrom_slashes,
          uncommentedFrom_line hb]
        rcases hn with rfl | rfl
        · rw [spelling_eq_nil hls (List.head?_eq_none_iff.1 hnext)]
          rfl
        · obtain ⟨r, hr⟩ := List.head?_eq_some_iff.1 hnext
          obtain ⟨ks, rfl, -⟩ := exists_codes_of_spelling (a := ['\n']) hr hls (by decide)
          rfl
      | @blockComment body _ hb =>
        obtain ⟨state, hstate, hms⟩ := exists_uncommentedFrom_block hb
        have hclose : uncommentedFrom state (⟨'*', .comment⟩ :: ⟨'/', .comment⟩ :: marked ls) =
            uncommentedFrom .outside (marked ls) := by
          rcases hstate with rfl | rfl <;> rfl
        rw [Lexeme.marks, List.map_cons, List.map_cons, List.map_append, List.cons_append, List.cons_append,
          List.append_assoc, uncommentedFrom_slash_star, hms]
        exact congrArg (' ' :: ·) hclose
      | @openComment body hb =>
        obtain ⟨state, -, hms⟩ := exists_uncommentedFrom_block hb
        rw [spelling_eq_nil hls (List.head?_eq_none_iff.1 hnext), Lexeme.marks, List.map_cons, List.map_cons,
          List.cons_append, List.cons_append, uncommentedFrom_slash_star, hms]
        rfl

theorem uncommented_spelling (h : ReadsAs ls none) :
    uncommented (spelling ls) = spelling (ls.map Lexeme.uncommented) := by
  rw [uncommented, marks_spelling h, uncommentedFrom_marked h]

/-! ## Reading what is left -/

theorem Lexeme.exists_uncommented_comment (t : Text) :
    ∃ c, Text.isAsciiBlank c = true ∧ (comment t).uncommented = code c := by
  rw [uncommented]
  split
  · exact ⟨'\n', by decide, rfl⟩
  · exact ⟨' ', by decide, rfl⟩

theorem Lexeme.IsRead.exists_comment {t : Text} {next : Option Char} (h : (Lexeme.comment t).IsRead next) :
    ∃ r, t = '/' :: r := by
  cases h <;> exact ⟨_, rfl⟩

theorem head?_uncommented (h : ReadsAs ls none) (hne : (spelling ls).head? ≠ some '/') :
    (spelling (ls.map Lexeme.uncommented)).head? = (spelling ls).head? := by
  cases ls with
  | nil => rfl
  | cons l ls =>
    cases l with
    | code c => rfl
    | literal t =>
      obtain ⟨c, r, rfl⟩ : ∃ c r, t = c :: r := List.exists_cons_of_ne_nil h.1.text_ne_nil
      rfl
    | comment t =>
      obtain ⟨r, rfl⟩ := h.1.exists_comment
      exact absurd rfl hne

/-- What is left is read as lexemes of its own: what stands in front of a comment can stand in front of a blank. -/
theorem ReadsAs.uncommented (h : ReadsAs ls none) : ReadsAs (ls.map Lexeme.uncommented) none := by
  induction ls with
  | nil => trivial
  | cons l ls ih =>
    obtain ⟨hl, hls⟩ := h
    refine ⟨?_, ih hls⟩
    rw [Option.or_none] at hl ⊢
    have hhead := head?_uncommented hls
    generalize hnext : (spelling ls).head? = next at hl hhead
    cases l with
    | comment t =>
      obtain ⟨c, hascii, hc⟩ := Lexeme.exists_uncommented_comment t
      have hblank := Text.isBlank_of_isAsciiBlank hascii
      obtain ⟨hquote, hslash⟩ := not_isQuote_of_isBlank hblank
      rw [hc]
      exact .code hquote fun e => absurd e hslash
    | code c =>
      cases hl with
      | code hq hs => exact .code hq fun e => by rw [hhead (hs e).1]; exact hs e
    | literal t =>
      cases hl with
      | literal hq hb => exact .literal hq hb
      | broken hq hb hn => rw [hhead (by decide)]; exact .broken hq hb hn
      | openLiteral hq hb ht => rw [hhead nofun]; exact .openLiteral hq hb ht

end

/-! ## Blanks -/

theorem uncommentedFrom_append (state : CommentState) (xs : List Mark) :
    ∃ state', ∀ ys, uncommentedFrom state (xs ++ ys) = uncommentedFrom state xs ++ uncommentedFrom state' ys := by
  induction xs generalizing state with
  | nil => exact ⟨state, fun ys => rfl⟩
  | cons x xs ih =>
    obtain ⟨state', h⟩ := ih (state.step x).2
    exact ⟨state', fun ys => by rw [List.cons_append, uncommentedFrom, h, uncommentedFrom, List.append_assoc]⟩

theorem uncommentedFrom_blank (state : CommentState) {ms : List Mark} (h : ∀ m ∈ ms, Text.isBlank m.char = true) :
    ∀ c ∈ uncommentedFrom state ms, Text.isBlank c = true := by
  have hstep : ∀ (state : CommentState) {m : Mark}, Text.isBlank m.char = true →
      ∀ c ∈ (state.step m).1, Text.isBlank c = true := by
    intro state m hm
    cases state <;> simp only [CommentState.step] <;> (try split) <;> simp [hm] <;> decide
  induction ms generalizing state with
  | nil => exact List.forall_mem_nil _
  | cons m ms ih =>
    exact List.forall_mem_append.2
      ⟨hstep state (h m List.mem_cons_self), ih _ fun x hx => h x (List.mem_cons_of_mem m hx)⟩

theorem trim_uncommented_trim (u : Text) :
    Text.trim (uncommented (Text.trim u)) = Text.trim (uncommented u) := by
  obtain ⟨a, bs, -, hmarks, ha, hbs⟩ := exists_marks_trim u
  obtain ⟨state, happend⟩ := uncommentedFrom_append .outside (marks (Text.trim u))
  rw [uncommented, uncommented, hmarks, uncommentedFrom_map (by decide), happend,
    Text.trim_blank_append ha (uncommentedFrom_blank state hbs)]

/-! ## The look ahead -/

section
variable {ls : List Lexeme}

theorem Lexeme.IsRead.exists_literal {t : Text} {next : Option Char} (h : (Lexeme.literal t).IsRead next) :
    ∃ q r, t = q :: r ∧ Text.isQuote q = true := by
  cases h with
  | literal hq | broken hq | openLiteral hq => exact ⟨_, _, rfl, hq⟩

theorem isIdentChar_of_opens {c : Char} (h : Text.isQuote c = true ∨ c = '/') :
    Text.isIdentChar c = false ∧ Text.isBlank c = false ∧ isContinuation c = false := by
  simp only [Text.isQuote, Bool.or_eq_true, beq_iff_eq] at h
  rcases h with ((rfl | rfl) | rfl) | rfl <;> decide

theorem takeWhile_uncommented (h : ReadsAs ls none) :
    (spelling (ls.map Lexeme.uncommented)).takeWhile Text.isIdentChar = (spelling ls).takeWhile Text.isIdentChar := by
  have hstop : ∀ {c : Char} (r : Text), Text.isIdentChar c = false → (c :: r).takeWhile Text.isIdentChar = [] :=
    fun r hc => List.takeWhile_cons_of_neg (by rw [hc]; exact Bool.false_ne_true)
  induction ls with
  | nil => rfl
  | cons l ls ih =>
    obtain ⟨hl, hls⟩ := h
    cases l with
    | code c =>
      show (c :: spelling (ls.map Lexeme.uncommented)).takeWhile _ = (c :: spelling ls).takeWhile _
      rw [List.takeWhile_cons, List.takeWhile_cons, ih hls]
    | literal t =>
      obtain ⟨q, r, rfl, hq⟩ := hl.exists_literal
      exact (hstop _ (isIdentChar_of_opens (.inl hq)).1).trans (hstop _ (isIdentChar_of_opens (.inl hq)).1).symm
    | comment t =>
      obtain ⟨c, hascii, hc⟩ := Lexeme.exists_uncommented_comment t
      have hblank := Text.isBlank_of_isAsciiBlank hascii
      obtain ⟨r, rfl⟩ := hl.exists_comment
      have hident := Text.not_isIdentChar_of_isBlank (Text.isBlank_of_isAsciiBlank hascii)
      rw [List.map_cons, spelling_cons, hc]
      exact (hstop _ hident).trans (hstop _ (by decide)).symm

theorem endsBlock_of_opens {c : Char} (h : Text.isQuote c = true ∨ c = '/') (r : Text) : endsBlock (c :: r) = true := by
  obtain ⟨hident, hblank, hcontinue⟩ := isIdentChar_of_opens h
  rw [endsBlock_cons hblank, hcontinue, List.takeWhile_cons_of_neg (by rw [hident]; exact Bool.false_ne_true)]
  rfl

/-- What goes on with a statement behind a brace still does without comments. -/
theorem endsBlock_uncommented (h : ReadsAs ls none) (hgoes : endsBlock (spelling ls) = false) :
    endsBlock (spelling (ls.map Lexeme.uncommented)) = false := by
  induction ls with
  | nil => cases hgoes
  | cons l ls ih =>
    have hword := takeWhile_uncommented h
    obtain ⟨hl, hls⟩ := h
    cases l with
    | code c =>
      have hcons : ∀ ls, spelling (.code c :: ls) = c :: spelling ls := fun ls => rfl
      rw [List.map_cons, Lexeme.uncommented, hcons, hcons] at *
      cases hblank : Text.isBlank c with
      | true =>
        rw [endsBlock_cons_blank hblank] at hgoes ⊢
        exact ih hls hgoes
      | false => rwa [endsBlock_cons hblank, hword, ← endsBlock_cons hblank]
    | literal t =>
      obtain ⟨q, r, rfl, hq⟩ := hl.exists_literal
      exact (Bool.eq_false_iff.1 hgoes (endsBlock_of_opens (.inl hq) _)).elim
    | comment t =>
      obtain ⟨r, rfl⟩ := hl.exists_comment
      exact (Bool.eq_false_iff.1 hgoes (endsBlock_of_opens (.inr rfl) _)).elim

end

end ThriftModules.Script
