import ThriftModules.Script.Mark
import ThriftModules.Proofs.Text.Sites

/-!
# Scripts written as pieces

* `Piece` : a character of code, a literal, or a comment, with the text that it is written as (`Piece.text`);
* `Piece.isClosed` : the piece ends where its text ends, a literal at its quote and a comment at its marker;
* `reads ps rest` : the pieces `ps` in front of `rest` are read as these pieces, since each is closed and no slash of
  code makes a comment with what follows it (`reads_append`, `reads_of_reads_nil`);
* `marksFrom_texts` : the marker gives each piece its own marks.
-/

namespace ThriftModules.Script

set_option autoImplicit false

/-! ## Pieces -/

/-- A stretch of a script that is read in one go. -/
inductive Piece where
  /-- A character outside literals and comments. -/
  | code (c : Char)
  /-- A literal, by what stands between its quotes. -/
  | literal (quote : Char) (body : Text)
  /-- A comment that ends with its line. -/
  | lineComment (body : Text)
  /-- A comment between two markers. -/
  | blockComment (body : Text)
deriving DecidableEq, Repr

namespace Piece

def text : Piece → Text
  | code c => [c]
  | literal quote body => quote :: (body ++ [quote])
  | lineComment body => '/' :: '/' :: (body ++ ['\n'])
  | blockComment body => '/' :: '*' :: (body ++ ['*', '/'])

/-- Whether `body` can stand between two quotes: what would end the literal stands behind a backslash only. -/
def isLiteralBody (quote : Char) : Text → Bool
  | [] => true
  | '\\' :: _ :: r => isLiteralBody quote r
  | c :: r => c != '\\' && c != quote && (c != '\n' || quote == Text.backtick) && isLiteralBody quote r

/-- Whether a piece ends where its text ends. -/
def isClosed : Piece → Bool
  | code c => !Text.isQuote c
  | literal quote body => Text.isQuote quote && isLiteralBody quote body
  | lineComment body => !body.any (· == '\n')
  | blockComment body => !Text.contains body "*/".toList

def marks : Piece → List Mark
  | code c => [⟨c, .code⟩]
  | literal quote body => (quote :: (body ++ [quote])).map (⟨·, .literal⟩)
  | lineComment body => ('/' :: '/' :: body).map (⟨·, .comment⟩) ++ [⟨'\n', .code⟩]
  | blockComment body => ('/' :: '*' :: (body ++ ['*', '/'])).map (⟨·, .comment⟩)

theorem text_ne_nil (p : Piece) : p.text ≠ [] := by
  cases p <;> simp [text]

/-- Text without backslashes and without what would end the literal can stand in it. -/
theorem isLiteralBody_of_plain {quote : Char} {body : Text}
    (h : ∀ c ∈ body, c ≠ '\\' ∧ c ≠ quote ∧ (c = '\n' → quote = Text.backtick)) :
    isLiteralBody quote body = true := by
  fun_induction isLiteralBody quote body with
  | case1 => rfl
  | case2 c r ih => exact absurd rfl (h '\\' List.mem_cons_self).1
  | case3 c r hescape ih =>
    obtain ⟨hslash, hquote, hline⟩ := h c List.mem_cons_self
    have hline' : c ≠ '\n' ∨ quote = Text.backtick := Decidable.not_or_of_imp hline
    simpa [hslash, hquote, hline'] using ih fun d hd => h d (List.mem_cons_of_mem c hd)

end Piece

def texts (ps : List Piece) : Text := ps.flatMap Piece.text

@[simp] theorem texts_nil : texts [] = [] := rfl

@[simp] theorem texts_cons (p : Piece) (ps : List Piece) : texts (p :: ps) = p.text ++ texts ps := rfl

@[simp] theorem texts_append (ps qs : List Piece) : texts (ps ++ qs) = texts ps ++ texts qs := List.flatMap_append

/-- The pieces of a text that is all code. -/
def codes (t : Text) : List Piece := t.map .code

@[simp] theorem texts_codes (t : Text) : texts (codes t) = t := by
  induction t with
  | nil => rfl
  | cons c t ih => simpa [codes, texts, Piece.text] using ih

/-! ## Pieces next to each other -/

/-- Whether `rest` makes a comment with a slash in front of it. -/
def opensComment (rest : Text) : Bool := rest.head? == some '/' || rest.head? == some '*'

theorem opensComment_append (t rest : Text) :
    opensComment (t ++ rest) = if t = [] then opensComment rest else opensComment t := by
  cases t <;> simp [opensComment]

/-- Whether pieces in front of `rest` are read as these pieces. -/
def reads : List Piece → Text → Bool
  | [], _ => true
  | p :: ps, rest => p.isClosed && !(p == .code '/' && opensComment (texts ps ++ rest)) && reads ps rest

theorem reads_cons {p : Piece} {ps : List Piece} {rest : Text} :
    reads (p :: ps) rest = true ↔
      p.isClosed = true ∧ (p = .code '/' → opensComment (texts ps ++ rest) = false) ∧ reads ps rest = true := by
  simp only [reads, Bool.and_eq_true, Bool.not_eq_true', Bool.and_eq_false_imp, beq_iff_eq, and_assoc]

theorem reads_append {ps qs : List Piece} {rest : Text} :
    reads (ps ++ qs) rest = true ↔ reads ps (texts qs ++ rest) = true ∧ reads qs rest = true := by
  induction ps with
  | nil => simp [reads]
  | cons p ps ih => simp only [List.cons_append, reads_cons, texts_append, List.append_assoc, ih, and_assoc]

/-- Pieces that are read alone are read in front of every text that makes no comment with a slash. -/
theorem reads_of_reads_nil {ps : List Piece} {rest : Text} (h : reads ps [] = true)
    (hr : opensComment rest = false) : reads ps rest = true := by
  induction ps with
  | nil => rfl
  | cons p ps ih =>
    obtain ⟨hp, hs, hps⟩ := reads_cons.1 h
    refine reads_cons.2 ⟨hp, fun e => ?_, ih hps⟩
    have ho := hs e
    rw [List.append_nil] at ho
    rw [opensComment_append]
    split
    · exact hr
    · exact ho

theorem reads_codes {t : Text} (h : ∀ c ∈ t, Text.isQuote c = false ∧ c ≠ '/') (rest : Text) :
    reads (codes t) rest = true := by
  induction t with
  | nil => rfl
  | cons c t ih =>
    obtain ⟨hq, hc⟩ := h c (by simp)
    refine reads_cons.2 ⟨by simp [Piece.isClosed, hq], fun e => ?_, ih fun d hd => h d (by simp [hd])⟩
    exact absurd (Piece.code.inj e) hc

/-! ## The marks of pieces -/

theorem marksFrom_code {c : Char} {r : Text} (h : c = '/' → opensComment r = false) :
    marksFrom .code (c :: r) =
      if Text.isQuote c then ⟨c, .literal⟩ :: marksFrom (.literal c) r else ⟨c, .code⟩ :: marksFrom .code r := by
  rw [marksFrom]
  · rintro r' rfl rfl
    simp [opensComment] at h
  · rintro r' rfl rfl
    simp [opensComment] at h

theorem marksFrom_lineComment {body : Text} (h : body.any (· == '\n') = false) (rest : Text) :
    marksFrom .lineComment (body ++ '\n' :: rest) =
      body.map (⟨·, .comment⟩) ++ ⟨'\n', .code⟩ :: marksFrom .code rest := by
  induction body with
  | nil => simp [marksFrom]
  | cons c body ih =>
    rw [List.any_cons, Bool.or_eq_false_iff, beq_eq_false_iff_ne] at h
    simp [marksFrom, h.1, ih h.2]

theorem marksFrom_blockComment {body : Text} (h : Text.contains body "*/".toList = false) (rest : Text) :
    marksFrom .blockComment (body ++ '*' :: '/' :: rest) =
      (body ++ ['*', '/']).map (⟨·, .comment⟩) ++ marksFrom .code rest := by
  induction body with
  | nil => simp [marksFrom]
  | cons c body ih =>
    obtain ⟨hc, hb⟩ := Text.contains_commentEnd_cons.1 h
    rw [List.cons_append, marksFrom, ih hb]
    · rfl
    · -- a star in front of a slash would end the comment inside its body
      rintro r' he hr
      exact Text.head?_append_commentEnd_ne (hc he) rest (by rw [hr]; rfl)

theorem marksFrom_literal {quote : Char} {body : Text} (hq : Text.isQuote quote = true)
    (h : Piece.isLiteralBody quote body = true) (rest : Text) :
    marksFrom (.literal quote) (body ++ quote :: rest) =
      (body ++ [quote]).map (⟨·, .literal⟩) ++ marksFrom .code rest := by
  fun_induction Piece.isLiteralBody quote body with
  | case1 =>
    rw [List.nil_append, marksFrom]
    · simp
    · rintro c r rfl
      exact absurd hq (by decide)
  | case2 c r ih => simp [marksFrom, ih h]
  | case3 c r _ ih =>
    simp only [Bool.and_eq_true, Bool.or_eq_true, bne_iff_ne, beq_iff_eq] at h
    obtain ⟨⟨⟨hs, hc⟩, hn⟩, hb⟩ := h
    have hline : ¬(c = '\n' ∧ quote ≠ Text.backtick) := by
      rintro ⟨h1, h2⟩
      exact hn.elim (· h1) h2
    rw [List.cons_append, marksFrom, if_neg hc, if_neg hline, ih hb]
    · rfl
    · rintro d r' rfl
      exact absurd rfl hs

theorem marksFrom_text {p : Piece} {rest : Text} (hp : p.isClosed = true)
    (hs : p = .code '/' → opensComment rest = false) :
    marksFrom .code (p.text ++ rest) = p.marks ++ marksFrom .code rest := by
  cases p with
  | code c =>
    rw [Piece.isClosed, Bool.not_eq_true'] at hp
    rw [Piece.text, List.singleton_append, marksFrom_code fun hc => hs (by rw [hc]), hp]
    rfl
  | literal quote body =>
    obtain ⟨hq, hb⟩ := Bool.and_eq_true_iff.1 hp
    have hc : quote = '/' → opensComment (body ++ [quote] ++ rest) = false := by
      rintro rfl
      exact absurd hq (by decide)
    rw [Piece.text, List.cons_append, marksFrom_code hc, if_pos hq, List.append_assoc, List.singleton_append,
      marksFrom_literal hq hb]
    rfl
  | lineComment body =>
    rw [Piece.isClosed, Bool.not_eq_true'] at hp
    simp [Piece.text, Piece.marks, marksFrom, marksFrom_lineComment hp]
  | blockComment body =>
    rw [Piece.isClosed, Bool.not_eq_true'] at hp
    simp [Piece.text, Piece.marks, marksFrom, marksFrom_blockComment hp]

theorem marksFrom_texts {ps : List Piece} {rest : Text} (h : reads ps rest = true) :
    marksFrom .code (texts ps ++ rest) = ps.flatMap Piece.marks ++ marksFrom .code rest := by
  induction ps with
  | nil => rfl
  | cons p ps ih =>
    obtain ⟨hp, hs, hps⟩ := reads_cons.1 h
    rw [texts_cons, List.append_assoc, marksFrom_text hp hs, ih hps, List.flatMap_cons, List.append_assoc]

end ThriftModules.Script
