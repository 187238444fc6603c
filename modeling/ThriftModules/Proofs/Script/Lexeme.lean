import Mathlib.Data.List.Basic
import ThriftModules.Proofs.Script.Parts

/-!
# Scripts as lexemes

Every script is read as lexemes, whether its literals and comments are closed or not.

* `Lexeme` : a character of code, a literal, or a comment without the line feed behind it;
* `Lexeme.IsRead`, `ReadsAs` : what is read in one go, by the character behind it; only the last lexeme of a script, and
  a literal or a comment at the end of a line, may be left open;
* `marksFrom_spelling` : the marker gives each lexeme its own marks;
* `exists_lexemes` : every text is the text of lexemes that are read so;
* `exists_codes_of_spelling` : text without quotes and slashes is read character by character;
* `marksFrom_append`, `exists_marks_trim` : a text that is cut off, and one with blanks around it.
-/

namespace ThriftModules.Script

set_option autoImplicit false

/-! ## Lexemes -/

/-- A stretch of a script that is read in one go. -/
inductive Lexeme where
  /-- A character outside literals and comments. -/
  | code (c : Char)
  /-- A literal with its quotes. -/
  | literal (t : Text)
  /-- A comment with its markers. -/
  | comment (t : Text)
deriving DecidableEq, Repr

namespace Lexeme

def text : Lexeme → Text
  | code c => [c]
  | literal t => t
  | comment t => t

def marks : Lexeme → List Mark
  | code c => [⟨c, .code⟩]
  | literal t => t.map (⟨·, .literal⟩)
  | comment t => t.map (⟨·, .comment⟩)

/-- Lexemes that are read in one go in front of the character `next`, or at the end of a script. -/
inductive IsRead : Lexeme → Option Char → Prop
  | code {c : Char} {next : Option Char} (hq : Text.isQuote c = false)
      (hs : c = '/' → next ≠ some '/' ∧ next ≠ some '*') : IsRead (.code c) next
  | literal {q : Char} {body : Text} {next : Option Char} (hq : Text.isQuote q = true)
      (hb : Piece.isLiteralBody q body = true) : IsRead (.literal (q :: (body ++ [q]))) next
  /-- A literal that its line ends. -/
  | broken {q : Char} {body : Text} (hq : Text.isQuote q = true) (hb : Piece.isLiteralBody q body = true)
      (hl : q ≠ Text.backtick) : IsRead (.literal (q :: body)) (some '\n')
  /-- A literal that the script ends, perhaps behind a backslash. -/
  | openLiteral {q : Char} {body tail : Text} (hq : Text.isQuote q = true) (hb : Piece.isLiteralBody q body = true)
      (ht : tail = [] ∨ tail = ['\\']) : IsRead (.literal (q :: (body ++ tail))) none
  | lineComment {body : Text} {next : Option Char} (hb : body.any (· == '\n') = false)
      (hn : next = none ∨ next = some '\n') : IsRead (.comment ('/' :: '/' :: body)) next
  | blockComment {body : Text} {next : Option Char} (hb : Text.contains body "*/".toList = false) :
      IsRead (.comment ('/' :: '*' :: (body ++ ['*', '/']))) next
  | openComment {body : Text} (hb : Text.contains body "*/".toList = false) :
      IsRead (.comment ('/' :: '*' :: body)) none

@[simp] theorem map_char_marks (l : Lexeme) : l.marks.map Mark.char = l.text := by
  cases l <;> simp [marks, text, Function.comp_def]

section
variable {l : Lexeme} {next : Option Char}

theorem IsRead.text_ne_nil (h : l.IsRead next) : l.text ≠ [] := by
  cases h <;> simp [text]

/-- What is read in one go in front of more script is so at the end as well. -/
theorem IsRead.atEnd (h : l.IsRead next) : l.IsRead none := by
  cases h with
  | code hq hs => exact .code hq fun _ => ⟨nofun, nofun⟩
  | literal hq hb => exact .literal hq hb
  | @broken q body hq hb hl =>
    have hopen : IsRead (.literal (q :: (body ++ []))) none := .openLiteral hq hb (.inl rfl)
    rwa [List.append_nil] at hopen
  | openLiteral hq hb ht => exact .openLiteral hq hb ht
  | lineComment hb hn => exact .lineComment hb (.inl rfl)
  | blockComment hb => exact .blockComment hb
  | openComment hb => exact .openComment hb

end

end Lexeme

def spelling (ls : List Lexeme) : Text := ls.flatMap Lexeme.text

def marked (ls : List Lexeme) : List Mark := ls.flatMap Lexeme.marks

/-- Lexemes that are read one after the other in front of the character `next`. -/
def ReadsAs : List Lexeme → Option Char → Prop
  | [], _ => True
  | l :: ls, next => l.IsRead ((spelling ls).head?.or next) ∧ ReadsAs ls next

section
variable {l : Lexeme} {ks ls : List Lexeme} {next : Option Char}

@[simp] theorem spelling_nil : spelling [] = [] := rfl

@[simp] theorem spelling_cons (l : Lexeme) (ls : List Lexeme) : spelling (l :: ls) = l.text ++ spelling ls := rfl

@[simp] theorem spelling_append (ks ls : List Lexeme) : spelling (ks ++ ls) = spelling ks ++ spelling ls :=
  List.flatMap_append

@[simp] theorem marked_nil : marked [] = [] := rfl

@[simp] theorem marked_cons (l : Lexeme) (ls : List Lexeme) : marked (l :: ls) = l.marks ++ marked ls := rfl

@[simp] theorem marked_append (ks ls : List Lexeme) : marked (ks ++ ls) = marked ks ++ marked ls := List.flatMap_append

@[simp] theorem map_char_marked (ls : List Lexeme) : (marked ls).map Mark.char = spelling ls := by
  induction ls with
  | nil => rfl
  | cons l ls ih => rw [marked_cons, List.map_append, l.map_char_marks, ih, spelling_cons]

theorem readsAs_append : ReadsAs (ks ++ ls) next ↔ ReadsAs ks ((spelling ls).head?.or next) ∧ ReadsAs ls next := by
  induction ks with
  | nil => simp [ReadsAs]
  | cons k ks ih =>
    rw [List.cons_append, ReadsAs, ReadsAs, ih, spelling_append, List.head?_append, Option.or_assoc, and_assoc]

theorem ReadsAs.atEnd (h : ReadsAs ls next) : ReadsAs ls none := by
  induction ls with
  | nil => trivial
  | cons l ls ih =>
    obtain ⟨hl, hls⟩ := h
    refine ⟨?_, ih hls⟩
    cases hhead : (spelling ls).head? with
    | none => exact hl.atEnd
    | some c => rwa [hhead] at hl

theorem ReadsAs.text_ne_nil (h : ReadsAs ls next) : ∀ l ∈ ls, l.text ≠ [] := by
  induction ls with
  | nil => exact List.forall_mem_nil _
  | cons k ls ih =>
    intro l hl
    rcases List.mem_cons.1 hl with rfl | hl
    · exact h.1.text_ne_nil
    · exact ih h.2 l hl

/-- Text without quotes and slashes is read character by character. -/
theorem readsAs_codes {t : Text} (h : ∀ c ∈ t, Text.isQuote c = false ∧ c ≠ '/') (next : Option Char) :
    ReadsAs (t.map .code) next := by
  induction t with
  | nil => trivial
  | cons c t ih =>
    obtain ⟨hq, hs⟩ := h c List.mem_cons_self
    exact ⟨.code hq fun e => absurd e hs, ih fun d hd => h d (List.mem_cons_of_mem c hd)⟩

@[simp] theorem spelling_codes (t : Text) : spelling (t.map .code) = t := by
  induction t with
  | nil => rfl
  | cons c t ih => rw [List.map_cons, spelling_cons, ih]; rfl

@[simp] theorem marked_codes (t : Text) : marked (t.map .code) = t.map (⟨·, .code⟩) := by
  induction t with
  | nil => rfl
  | cons c t ih => rw [List.map_cons, marked_cons, ih]; rfl

end

/-! ## The marks of lexemes -/

theorem marksFrom_literal_cons {quote c : Char} {r : Text} (hc : c ≠ '\\') :
    marksFrom (.literal quote) (c :: r) =
      if c = quote then ⟨c, .literal⟩ :: marksFrom .code r
      else if c = '\n' ∧ quote ≠ Text.backtick then ⟨c, .code⟩ :: marksFrom .code r
      else ⟨c, .literal⟩ :: marksFrom (.literal quote) r := by
  rw [marksFrom]
  rintro d r' rfl
  exact absurd rfl hc

theorem marksFrom_blockComment_cons {c : Char} {r : Text} (h : c = '*' → ∀ r', r ≠ '/' :: r') :
    marksFrom .blockComment (c :: r) = ⟨c, .comment⟩ :: marksFrom .blockComment r := by
  rw [marksFrom]
  exact fun r' hc hr => h hc r' hr

theorem marksFrom_line_feed (r : Text) : marksFrom .code ('\n' :: r) = ⟨'\n', .code⟩ :: marksFrom .code r := by
  rw [marksFrom_code fun e => absurd e (by decide)]
  rfl

theorem marksFrom_literal_open {q : Char} {body t rest : Text} (hb : Piece.isLiteralBody q body = true)
    (ht : marksFrom (.literal q) (t ++ rest) = t.map (⟨·, .literal⟩) ++ marksFrom .code rest) :
    marksFrom (.literal q) (body ++ (t ++ rest)) = (body ++ t).map (⟨·, .literal⟩) ++ marksFrom .code rest := by
  fun_induction Piece.isLiteralBody q body with
  | case1 => exact ht
  | case2 c r ih => simp [marksFrom, ih hb]
  | case3 c r _ ih =>
    simp only [Bool.and_eq_true, Bool.or_eq_true, bne_iff_ne, beq_iff_eq] at hb
    obtain ⟨⟨⟨hs, hc⟩, hn⟩, hb⟩ := hb
    have hline : ¬(c = '\n' ∧ q ≠ Text.backtick) := by
      rintro ⟨h1, h2⟩
      exact hn.elim (· h1) h2
    rw [List.cons_append, marksFrom_literal_cons hs, if_neg hc, if_neg hline, ih hb]
    rfl

/-- A comment without its closing marker, up to the end of the script. -/
theorem marksFrom_blockComment_open {body : Text} (h : Text.contains body "*/".toList = false) :
    marksFrom .blockComment body = body.map (⟨·, .comment⟩) := by
  induction body with
  | nil => rfl
  | cons c body ih =>
    obtain ⟨hc, hb⟩ := Text.contains_commentEnd_cons.1 h
    have hclose : c = '*' → ∀ r, body ≠ '/' :: r := by
      rintro rfl r rfl
      exact hc rfl rfl
    rw [marksFrom_blockComment_cons hclose, ih hb]
    rfl

theorem opensComment_eq_false {rest : Text} :
    opensComment rest = false ↔ rest.head? ≠ some '/' ∧ rest.head? ≠ some '*' := by
  simp [opensComment]

theorem marksFrom_lexeme {l : Lexeme} {rest : Text} (h : l.IsRead rest.head?) :
    marksFrom .code (l.text ++ rest) = l.marks ++ marksFrom .code rest := by
  generalize hnext : rest.head? = next at h
  cases h with
  | @code c _ hq hs =>
    have hopens : c = '/' → opensComment rest = false := fun e => opensComment_eq_false.2 (hnext ▸ hs e)
    rw [Lexeme.text, List.singleton_append, marksFrom_code hopens, hq]
    rfl
  | @literal q body _ hq hb =>
    have hs : q = '/' → opensComment (body ++ [q] ++ rest) = false := by
      rintro rfl
      exact absurd hq (by decide)
    rw [Lexeme.text, List.cons_append, marksFrom_code hs, if_pos hq, List.append_assoc, List.singleton_append,
      marksFrom_literal hq hb]
    rfl
  | @broken q body hq hb hl =>
    have hs : q = '/' → opensComment (body ++ rest) = false := by
      rintro rfl
      exact absurd hq (by decide)
    obtain ⟨r, rfl⟩ := List.head?_eq_some_iff.1 hnext
    have hne : '\n' ≠ q := by
      rintro rfl
      exact absurd hq (by decide)
    have hend : marksFrom (.literal q) ([] ++ '\n' :: r) = marksFrom .code ('\n' :: r) := by
      rw [List.nil_append, marksFrom_line_feed, marksFrom, if_neg hne, if_pos ⟨rfl, hl⟩]
      exact fun _ _ e => absurd e (by decide)
    have hopen := marksFrom_literal_open (t := []) hb hend
    rw [List.nil_append, List.append_nil] at hopen
    rw [Lexeme.text, List.cons_append, marksFrom_code hs, if_pos hq, hopen]
    rfl
  | @openLiteral q body tail hq hb ht =>
    have hs : q = '/' → opensComment (body ++ tail ++ rest) = false := by
      rintro rfl
      exact absurd hq (by decide)
    obtain rfl := List.head?_eq_none_iff.1 hnext
    have hend : marksFrom (.literal q) (tail ++ []) = tail.map (⟨·, .literal⟩) ++ marksFrom .code [] := by
      rcases ht with rfl | rfl
      · rfl
      · have hne : '\\' ≠ q := by
          rintro rfl
          exact absurd hq (by decide)
        simp [marksFrom, hne]
    rw [Lexeme.text, List.cons_append, marksFrom_code hs, if_pos hq, List.append_assoc,
      marksFrom_literal_open hb hend]
    rfl
  | @lineComment body _ hb hn =>
    rcases hn with hn | hn
    · obtain rfl := List.head?_eq_none_iff.1 (hnext.trans hn)
      simp [Lexeme.text, Lexeme.marks, marksFrom, marksFrom_lineComment_open hb]
    · obtain ⟨r, rfl⟩ := List.head?_eq_some_iff.1 (hnext.trans hn)
      rw [marksFrom_line_feed]
      simp [Lexeme.text, Lexeme.marks, marksFrom, marksFrom_lineComment hb]
  | @blockComment body _ hb => simp [Lexeme.text, Lexeme.marks, marksFrom, marksFrom_blockComment hb]
  | @openComment body hb =>
    obtain rfl := List.head?_eq_none_iff.1 hnext
    simp [Lexeme.text, Lexeme.marks, marksFrom, marksFrom_blockComment_open hb]

theorem marksFrom_spelling {ls : List Lexeme} {r : Text} (h : ReadsAs ls r.head?) :
    marksFrom .code (spelling ls ++ r) = marked ls ++ marksFrom .code r := by
  induction ls with
  | nil => rfl
  | cons l ls ih =>
    obtain ⟨hl, hls⟩ := h
    rw [spelling_cons, List.append_assoc, marksFrom_lexeme (by rwa [List.head?_append]), ih hls, marked_cons,
      List.append_assoc]

theorem marks_spelling {ls : List Lexeme} (h : ReadsAs ls none) : marks (spelling ls) = marked ls := by
  simpa [marks, marksFrom] using marksFrom_spelling (r := []) h

/-! ## The lexemes of a text -/

/-- A comment between two markers, which it opens with, up to its end or to that of the text. -/
theorem exists_blockComment (r : Text) :
    ∃ l rest, '/' :: '*' :: r = Lexeme.text l ++ rest ∧ l.IsRead rest.head? := by
  suffices h : Text.contains r "*/".toList = false ∨
      ∃ body rest, r = body ++ '*' :: '/' :: rest ∧ Text.contains body "*/".toList = false by
    rcases h with h | ⟨body, rest, rfl, h⟩
    · exact ⟨.comment ('/' :: '*' :: r), [], (List.append_nil _).symm, .openComment h⟩
    · exact ⟨.comment ('/' :: '*' :: (body ++ ['*', '/'])), rest, by simp [Lexeme.text], .blockComment h⟩
  induction r with
  | nil => exact .inl rfl
  | cons c r ih =>
    by_cases hclose : c = '*' ∧ r.head? = some '/'
    · obtain ⟨rfl, hslash⟩ := hclose
      obtain ⟨rest, rfl⟩ := List.head?_eq_some_iff.1 hslash
      exact .inr ⟨[], rest, rfl, rfl⟩
    · rcases ih with h | ⟨body, rest, rfl, h⟩
      · exact .inl (Text.contains_commentEnd_cons.2 ⟨fun hc hslash => hclose ⟨hc, hslash⟩, h⟩)
      · refine .inr ⟨c :: body, rest, rfl, Text.contains_commentEnd_cons.2 ⟨fun hc hslash => hclose ⟨hc, ?_⟩, h⟩⟩
        -- the marker would stand in the first characters of the body, and in the text
        obtain ⟨u, rfl⟩ := List.head?_eq_some_iff.1 hslash
        rfl

/-- A literal up to its quote, to the end of its line or to that of the text. -/
theorem exists_literal {q : Char} (hq : Text.isQuote q = true) (r : Text) :
    ∃ l rest, q :: r = Lexeme.text l ++ rest ∧ l.IsRead rest.head? := by
  have hclose : ∀ body rest, Piece.isLiteralBody q body = true →
      ∃ l rest', q :: (body ++ q :: rest) = Lexeme.text l ++ rest' ∧ l.IsRead rest'.head? :=
    fun body rest hb => ⟨.literal (q :: (body ++ [q])), rest, by simp [Lexeme.text], .literal hq hb⟩
  suffices h : ∃ body rest, r = body ++ rest ∧ Piece.isLiteralBody q body = true ∧
      (rest = [] ∨ rest = ['\\'] ∨ rest.head? = some q ∨ rest.head? = some '\n' ∧ q ≠ Text.backtick) by
    obtain ⟨body, rest, rfl, hb, rfl | rfl | hrest | ⟨hrest, hl⟩⟩ := h
    · exact ⟨.literal (q :: (body ++ [])), [], by simp [Lexeme.text], .openLiteral hq hb (.inl rfl)⟩
    · exact ⟨.literal (q :: (body ++ ['\\'])), [], by simp [Lexeme.text], .openLiteral hq hb (.inr rfl)⟩
    · obtain ⟨r, rfl⟩ := List.head?_eq_some_iff.1 hrest
      exact hclose body r hb
    · exact ⟨.literal (q :: body), rest, rfl, hrest ▸ .broken hq hb hl⟩
  fun_induction Piece.isLiteralBody q r with
  | case1 => exact ⟨[], [], rfl, rfl, .inl rfl⟩
  | case2 c r ih =>
    obtain ⟨body, rest, rfl, hb, hrest⟩ := ih
    exact ⟨'\\' :: c :: body, rest, rfl, hb, hrest⟩
  | case3 c r hescape ih =>
    by_cases hs : c = '\\'
    · cases r with
      | nil => exact ⟨[], _, rfl, rfl, .inr (.inl (by rw [hs]))⟩
      | cons d r => exact absurd rfl (hescape d r hs)
    by_cases hc : c = q
    · exact ⟨[], c :: r, rfl, rfl, .inr (.inr (.inl (by rw [hc]; rfl)))⟩
    by_cases hl : c = '\n' ∧ q ≠ Text.backtick
    · exact ⟨[], c :: r, rfl, rfl, .inr (.inr (.inr ⟨by rw [hl.1]; rfl, hl.2⟩))⟩
    · obtain ⟨body, rest, rfl, hb, hrest⟩ := ih
      refine ⟨c :: body, rest, rfl, ?_, hrest⟩
      rw [Piece.isLiteralBody]
      · have hline : c ≠ '\n' ∨ q = Text.backtick := by
          by_cases hn : c = '\n'
          · exact .inr (not_not.1 fun hne => hl ⟨hn, hne⟩)
          · exact .inl hn
        simp [hs, hc, hb, hline]
      · exact fun _ _ e => absurd e hs

theorem exists_first (c : Char) (r : Text) : ∃ l rest, c :: r = Lexeme.text l ++ rest ∧ l.IsRead rest.head? := by
  cases hq : Text.isQuote c with
  | true => exact exists_literal hq r
  | false =>
    by_cases hcode : c = '/' → r.head? ≠ some '/' ∧ r.head? ≠ some '*'
    · exact ⟨.code c, r, rfl, .code hq hcode⟩
    · obtain ⟨rfl, hopens⟩ := Classical.not_imp.1 hcode
      by_cases hline : r.head? = some '/'
      · obtain ⟨t, rfl⟩ := List.head?_eq_some_iff.1 hline
        refine ⟨.comment ('/' :: '/' :: t.takeWhile (· != '\n')), t.dropWhile (· != '\n'), ?_, .lineComment ?_ ?_⟩
        · rw [Lexeme.text, List.cons_append, List.cons_append, List.takeWhile_append_dropWhile]
        · rw [List.any_eq_false]
          intro d hd
          simpa using List.mem_takeWhile_imp hd
        · have hhead := List.head?_dropWhile_not (· != '\n') t
          cases hd : (t.dropWhile (· != '\n')).head? with
          | none => exact .inl rfl
          | some d =>
            rw [hd] at hhead
            exact .inr (by simpa using hhead)
      · obtain ⟨t, rfl⟩ := List.head?_eq_some_iff.1 (not_not.1 fun hstar => hopens ⟨hline, hstar⟩)
        exact exists_blockComment t

theorem exists_lexemes (t : Text) : ∃ ls, spelling ls = t ∧ ReadsAs ls none := by
  cases t with
  | nil => exact ⟨[], rfl, trivial⟩
  | cons c r =>
    obtain ⟨l, rest, hl, hread⟩ := exists_first c r
    have hlen : rest.length < r.length + 1 := by
      have := congrArg List.length hl
      have := List.length_pos_iff.2 hread.text_ne_nil
      simp only [List.length_cons, List.length_append] at *
      omega
    obtain ⟨ls, rfl, hls⟩ := exists_lexemes rest
    exact ⟨l :: ls, hl.symm, by rwa [Option.or_none], hls⟩
termination_by t.length

theorem not_isQuote_of_isBlank {c : Char} (h : Text.isBlank c = true) : Text.isQuote c = false ∧ c ≠ '/' :=
  (isQuiet_iff.1 (isQuiet_of_isBlank h)).1

section
variable {ls : List Lexeme} {next : Option Char}

/-- Lexemes that start with text without quotes and slashes start with its characters. -/
theorem exists_codes_of_spelling {a b : Text} (h : spelling ls = a ++ b) (hr : ReadsAs ls next)
    (ha : ∀ c ∈ a, Text.isQuote c = false ∧ c ≠ '/') : ∃ ks, ls = a.map .code ++ ks ∧ spelling ks = b := by
  induction a generalizing ls with
  | nil => exact ⟨ls, rfl, h⟩
  | cons c a ih =>
    obtain - | ⟨l, ls⟩ := ls
    · cases h
    obtain ⟨hl, hls⟩ := hr
    obtain ⟨hquote, hslash⟩ := ha c List.mem_cons_self
    have hcode : l = .code c := by
      rw [spelling_cons, List.cons_append] at h
      cases hl.atEnd with
      | code => rw [(List.cons.inj h).1]
      | literal hq | openLiteral hq => rw [(List.cons.inj h).1, hquote] at hq; cases hq
      | lineComment | blockComment | openComment => exact absurd (List.cons.inj h).1.symm hslash
    subst hcode
    obtain ⟨ks, rfl, hks⟩ := ih (List.cons.inj h).2 hls fun d hd => ha d (List.mem_cons_of_mem c hd)
    exact ⟨ks, rfl, hks⟩

theorem spelling_eq_nil (hr : ReadsAs ls next) (h : spelling ls = []) : ls = [] := by
  cases ls with
  | nil => rfl
  | cons l ls => exact absurd (List.append_eq_nil_iff.1 h).1 hr.1.text_ne_nil

theorem marked_eq_nil (hr : ReadsAs ls next) (h : marked ls = []) : ls = [] :=
  spelling_eq_nil hr (by rw [← map_char_marked, h]; rfl)

theorem exists_code_of_marked {c : Char} {ms : List Mark} (hc : Text.isQuote c = false ∧ c ≠ '/')
    (hr : ReadsAs ls next) (h : marked ls = ⟨c, .code⟩ :: ms) : ∃ ks, ls = .code c :: ks := by
  have hspelling : spelling ls = [c] ++ ms.map Mark.char := by rw [← map_char_marked, h]; rfl
  obtain ⟨ks, hks, -⟩ := exists_codes_of_spelling hspelling hr fun d hd => List.mem_singleton.1 hd ▸ hc
  exact ⟨ks, hks⟩

theorem eq_codes_of_spelling (hr : ReadsAs ls next) (h : ∀ c ∈ spelling ls, Text.isQuote c = false ∧ c ≠ '/') :
    ls = (spelling ls).map .code := by
  obtain ⟨ks, hks, hnil⟩ := exists_codes_of_spelling (List.append_nil _).symm hr h
  have hks' : ReadsAs ks next := (readsAs_append.1 (hks ▸ hr)).2
  rwa [spelling_eq_nil hks' hnil, List.append_nil] at hks

end

/-! ## Texts that are cut -/

/-- Where what follows makes no comment with a slash, a text keeps its marks in front of it. -/
theorem marksFrom_append {u : Text} (hu : opensComment u = false) (state : MarkState) (t : Text) :
    ∃ ms, marksFrom state (t ++ u) = marksFrom state t ++ ms ∧ ms.map Mark.char = u := by
  have hcons : ∀ {m : Mark} {xs ys : List Mark}, (∃ ms, xs = ys ++ ms ∧ ms.map Mark.char = u) →
      ∃ ms, m :: xs = m :: ys ++ ms ∧ ms.map Mark.char = u := by
    rintro m xs ys ⟨ms, rfl, hms⟩
    exact ⟨ms, rfl, hms⟩
  have hopens : ∀ {r : Text}, (∀ r', r ≠ '/' :: r') → (∀ r', r ≠ '*' :: r') →
      opensComment r = false ∧ opensComment (r ++ u) = false := by
    intro r hline hblock
    have hr : opensComment r = false := by
      cases r with
      | nil => rfl
      | cons d r => simpa [opensComment] using ⟨fun e => hline r (by rw [e]), fun e => hblock r (by rw [e])⟩
    exact ⟨hr, by rw [opensComment_append]; split <;> assumption⟩
  -- a backslash that the cut leaves at the end of a literal
  have hlast : ∀ quote,
      ∃ ms, marksFrom (.literal quote) ('\\' :: u) = ⟨'\\', .literal⟩ :: ms ∧ ms.map Mark.char = u := by
    intro quote
    cases u with
    | nil => by_cases hq : '\\' = quote <;> simp [marksFrom, hq]
    | cons d u =>
      refine ⟨⟨d, .literal⟩ :: marksFrom (.literal quote) u, by rw [marksFrom], ?_⟩
      exact congrArg (d :: ·) (map_char_marksFrom _ u)
  have hrest : ∀ {r : Text}, (∀ d r', r ≠ d :: r') → r = [] := by
    intro r hr
    cases r with
    | nil => rfl
    | cons d r => exact absurd rfl (hr d r)
  fun_induction marksFrom state t with
  | case1 r ih => simpa [marksFrom] using ih
  | case2 r ih => simpa [marksFrom] using ih
  | case3 c r hline hblock hq ih =>
    rw [List.cons_append, marksFrom_code fun e => (hopens (fun r' => hline r' e) fun r' => hblock r' e).2, if_pos hq]
    exact hcons ih
  | case4 c r hline hblock hq ih =>
    rw [List.cons_append, marksFrom_code fun e => (hopens (fun r' => hline r' e) fun r' => hblock r' e).2, if_neg hq]
    exact hcons ih
  | case5 r ih => simpa [marksFrom] using ih
  | case6 c r hc ih => simpa [marksFrom, hc] using ih
  | case7 r ih => simpa [marksFrom] using ih
  | case8 c r hclose ih =>
    have hstar : c = '*' → ∀ r', r ++ u ≠ '/' :: r' := by
      rintro e r' hr
      cases r with
      | nil =>
        rw [List.nil_append] at hr
        rw [hr] at hu
        cases hu
      | cons d r => exact hclose r e (by rw [(List.cons.inj hr).1])
    rw [List.cons_append, marksFrom_blockComment_cons hstar]
    exact hcons ih
  | case9 quote c r ih => simpa [marksFrom] using ih
  | case10 c r hescape ih =>
    by_cases hc : c = '\\'
    · obtain rfl := hrest fun d r => hescape d r hc
      subst hc
      exact hlast _
    · rw [List.cons_append, marksFrom_literal_cons hc, if_pos rfl]
      exact hcons ih
  | case11 quote c r hescape hne hline ih =>
    have hc : c ≠ '\\' := by
      rw [hline.1]
      decide
    rw [List.cons_append, marksFrom_literal_cons hc, if_neg hne, if_pos hline]
    exact hcons ih
  | case12 quote c r hescape hne hline ih =>
    by_cases hc : c = '\\'
    · obtain rfl := hrest fun d r => hescape d r hc
      subst hc
      exact hlast quote
    · rw [List.cons_append, marksFrom_literal_cons hc, if_neg hne, if_neg hline]
      exact hcons ih
  | case13 state => exact ⟨_, rfl, map_char_marksFrom state u⟩

theorem opensComment_of_isBlank {t : Text} (h : ∀ c ∈ t.head?, Text.isBlank c = true) : opensComment t = false := by
  have hne : ∀ c ∈ t.head?, ∀ d, Text.isBlank d = false → c ≠ d := by
    rintro c hc d hd rfl
    rw [h c hc] at hd
    cases hd
  refine opensComment_eq_false.2 ⟨fun e => ?_, fun e => ?_⟩
  · exact hne _ e '/' (by decide) rfl
  · exact hne _ e '*' (by decide) rfl

/-- Text without quotes and slashes is code in front of another text. -/
theorem marks_codes_append {a : Text} (h : ∀ c ∈ a, Text.isQuote c = false ∧ c ≠ '/') (u : Text) :
    marks (a ++ u) = a.map (⟨·, .code⟩) ++ marks u := by
  simpa [marks] using marksFrom_spelling (readsAs_codes h u.head?)

theorem exists_marks_trim (u : Text) :
    ∃ (a : Text) (bs : List Mark), u = a ++ (Text.trim u ++ bs.map Mark.char) ∧
      marks u = a.map (⟨·, .code⟩) ++ (marks (Text.trim u) ++ bs) ∧ (∀ c ∈ a, Text.isBlank c = true) ∧
      ∀ m ∈ bs, Text.isBlank m.char = true := by
  obtain ⟨a, b, hab, ha, hb⟩ := Text.exists_trim u
  obtain ⟨bs, hbs, rfl⟩ := marksFrom_append (opensComment_of_isBlank fun c hc => hb c (List.mem_of_head? hc)) .code
    (Text.trim u)
  refine ⟨a, bs, hab, ?_, ha, fun m hm => hb _ (List.mem_map_of_mem hm)⟩
  calc marks u = marks (a ++ (Text.trim u ++ bs.map Mark.char)) := by rw [← hab]
    _ = a.map (⟨·, .code⟩) ++ (marks (Text.trim u) ++ bs) := by
      rw [marks_codes_append fun c hc => not_isQuote_of_isBlank (ha c hc), marks, hbs, marks]

end ThriftModules.Script
