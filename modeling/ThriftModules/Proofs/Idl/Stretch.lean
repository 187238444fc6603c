import ThriftModules.Proofs.Idl.Included

/-!
# Lines as stretches

Every line is a row of characters, literals and comments, whether its literals and comments are closed or not.

* `Stretch` : a character of code, a literal, or a comment as far as it stands on the line;
* `spelling`, `kept` : the text of stretches, and the cells that they leave;
* `Reads` : the stretches of a line that is entered in code, by what can follow each of them;
* `ReadsLine`, `ReadsLines` : those of a line that a block comment can lead into, and those of the lines of a file;
* `scanLine_of_readsLine` : the scanner keeps what the stretches of a line leave;
* `exists_readsLines` : every list of lines is the text of such stretches.
-/

namespace ThriftModules.Idl

set_option autoImplicit false

/-! ## Stretches -/

/-- What can stand behind the quote that opens a literal, up to its other quote or to the end of the line: a backslash
takes the next character with it, and stands alone at the end of the line only. -/
inductive IsInside (quote : Char) : (isClosed : Bool) → Text → Prop where
  | nil {isClosed : Bool} : IsInside quote isClosed []
  | char {isClosed : Bool} {c : Char} {t : Text} (ne : c ≠ quote) (noEscape : c ≠ '\\')
    (rest : IsInside quote isClosed t) : IsInside quote isClosed (c :: t)
  | escape {isClosed : Bool} {c : Char} {t : Text} (rest : IsInside quote isClosed t) :
    IsInside quote isClosed ('\\' :: c :: t)
  | dangling : IsInside quote false ['\\']

/-- A part of a line that is read as a whole. -/
inductive Stretch where
  /-- A character outside comments and literals. -/
  | char (c : Char)
  /-- A literal, by its quote and what stands inside; if it is not closed, its line ends it. -/
  | literal (quote : Char) (body : Text) (isClosed : Bool)
  /-- A block comment, as far as it stands on the line that closes it. -/
  | comment (t : Text)
  /-- A comment that reaches the end of the line, as far as it stands on it. -/
  | tail (t : Text)
deriving DecidableEq, Repr

namespace Stretch

def closing (quote : Char) (isClosed : Bool) : Text := if isClosed then [quote] else []

def text : Stretch → Text
  | char c => [c]
  | literal quote body isClosed => quote :: (body ++ closing quote isClosed)
  | comment t => t
  | tail t => t

def cells : Stretch → List Cell
  | char c => [.plain c]
  | literal quote body isClosed => .plain quote :: (body.map .hidden ++ (closing quote isClosed).map .plain)
  | comment _ => [.plain ' ']
  | tail _ => []

end Stretch

def spelling (ss : List Stretch) : Text := ss.flatMap Stretch.text

def kept (ss : List Stretch) : List Cell := ss.flatMap Stretch.cells

section
variable (s : Stretch) (ss ss' : List Stretch)

@[simp] theorem spelling_nil : spelling [] = [] := rfl

@[simp] theorem spelling_cons : spelling (s :: ss) = s.text ++ spelling ss := rfl

@[simp] theorem spelling_append : spelling (ss ++ ss') = spelling ss ++ spelling ss' := List.flatMap_append

@[simp] theorem kept_nil : kept [] = [] := rfl

@[simp] theorem kept_cons : kept (s :: ss) = s.cells ++ kept ss := rfl

@[simp] theorem kept_append : kept (ss ++ ss') = kept ss ++ kept ss' := List.flatMap_append

end

/-- The stretches of a line that is entered in code; the flag says whether it leaves a block comment open. -/
inductive Reads : List Stretch → Bool → Prop where
  | nil : Reads [] false
  | char {c : Char} {ss : List Stretch} {inComment : Bool} (noQuote : isLiteralQuote c = false) (noHash : c ≠ '#')
    (noMarker : c = '/' → (spelling ss).head? ≠ some '/' ∧ (spelling ss).head? ≠ some '*')
    (rest : Reads ss inComment) : Reads (.char c :: ss) inComment
  | literal {quote : Char} {body : Text} {ss : List Stretch} {inComment : Bool} (isQuote : isLiteralQuote quote = true)
    (inside : IsInside quote true body) (rest : Reads ss inComment) : Reads (.literal quote body true :: ss) inComment
  | openLiteral {quote : Char} {body : Text} (isQuote : isLiteralQuote quote = true)
    (inside : IsInside quote false body) : Reads [.literal quote body false] false
  | comment {body : Text} {ss : List Stretch} {inComment : Bool} (noEnd : Text.contains body "*/".toList = false)
    (rest : Reads ss inComment) : Reads (.comment ('/' :: '*' :: (body ++ ['*', '/'])) :: ss) inComment
  | openComment {body : Text} (noEnd : Text.contains body "*/".toList = false) :
    Reads [.tail ('/' :: '*' :: body)] true
  | slashes {body : Text} : Reads [.tail ('/' :: '/' :: body)] false
  | hash {body : Text} : Reads [.tail ('#' :: body)] false

inductive ReadsLine : Bool → List Stretch → Bool → Prop where
  | code {ss : List Stretch} {inComment : Bool} (reads : Reads ss inComment) : ReadsLine false ss inComment
  | closes {body : Text} {ss : List Stretch} {inComment : Bool} (noEnd : Text.contains body "*/".toList = false)
    (rest : Reads ss inComment) : ReadsLine true (.comment (body ++ ['*', '/']) :: ss) inComment
  | stays {body : Text} (noEnd : Text.contains body "*/".toList = false) : ReadsLine true [.tail body] true

/-- The stretches of each of some lines; the flag says whether a block comment is open before the first. -/
inductive ReadsLines : Bool → List Text → List (List Stretch) → Prop where
  | nil {inComment : Bool} : ReadsLines inComment [] []
  | cons {inComment inComment' : Bool} {ss : List Stretch} {lines : List Text} {readings : List (List Stretch)}
    (line : ReadsLine inComment ss inComment') (rest : ReadsLines inComment' lines readings) :
    ReadsLines inComment (spelling ss :: lines) (ss :: readings)

/-! ## The scan of stretches -/

theorem scanLine_comment_closed {body : Text} (h : Text.contains body "*/".toList = false) (r : Text) :
    scanLine .comment (body ++ '*' :: '/' :: r) = (scanLine .code r).cons (.plain ' ') := by
  induction body with
  | nil => rw [List.nil_append, scanLine]
  | cons c body ih =>
    obtain ⟨hc, hbody⟩ := Text.contains_commentEnd_cons.1 h
    rw [List.cons_append, scanLine_comment_cons fun he => Text.head?_append_commentEnd_ne (hc he) r, ih hbody]

theorem scanLine_comment_unclosed {body : Text} (h : Text.contains body "*/".toList = false) :
    scanLine .comment body = ⟨[], true⟩ := by
  induction body with
  | nil => rfl
  | cons c body ih =>
    obtain ⟨hc, hbody⟩ := Text.contains_commentEnd_cons.1 h
    rw [scanLine_comment_cons hc, ih hbody]

theorem scanLine_inside {quote : Char} {isClosed : Bool} {body r : Text} (hquote : isLiteralQuote quote = true)
    (h : IsInside quote isClosed body) (hr : isClosed = false → r = []) :
    scanLine (.literal quote) (body ++ r) =
      ⟨body.map .hidden ++ (scanLine (.literal quote) r).cells, (scanLine (.literal quote) r).inComment⟩ := by
  induction h with
  | nil => rfl
  | char ne noEscape _ ih =>
    rw [List.cons_append, scanLine, if_neg ne, ih hr]
    · rfl
    · rintro _ _ rfl
      exact absurd rfl noEscape
  | escape _ ih =>
    rw [List.cons_append, List.cons_append, scanLine, ih hr]
    rfl
  | dangling =>
    obtain rfl := hr rfl
    have hne : '\\' ≠ quote := by
      rintro rfl
      exact absurd hquote (by decide)
    rw [List.append_nil, scanLine, if_neg hne]
    · rfl
    · rintro _ _ _ ⟨⟩

/-- The scanner keeps what the stretches of a line leave. -/
theorem scanLine_of_reads {ss : List Stretch} {inComment : Bool} (h : Reads ss inComment) :
    scanLine .code (spelling ss) = ⟨kept ss, inComment⟩ := by
  induction h with
  | nil => rfl
  | char noQuote noHash noMarker _ ih =>
    rw [spelling_cons, Stretch.text, List.singleton_append, scanLine_code_cons noQuote noHash noMarker, ih]
    rfl
  | @literal quote body ss _ isQuote inside _ ih =>
    have hr : true = false → quote :: spelling ss = [] := fun h => absurd h (by decide)
    have htext : spelling (.literal quote body true :: ss) = quote :: (body ++ quote :: spelling ss) := by
      simp [Stretch.text, Stretch.closing]
    rw [htext, scanLine_openQuote isQuote, scanLine_inside isQuote inside hr, scanLine_closeQuote isQuote, ih]
    simp [ScannedLine.cons, Stretch.cells, Stretch.closing]
  | @openLiteral quote body isQuote inside =>
    have htext : spelling [.literal quote body false] = quote :: (body ++ []) := by
      simp [Stretch.text, Stretch.closing]
    rw [htext, scanLine_openQuote isQuote, scanLine_inside isQuote inside fun _ => rfl]
    simp [ScannedLine.cons, Stretch.cells, Stretch.closing, scanLine]
  | @comment body ss _ noEnd _ ih =>
    have htext : spelling (.comment ('/' :: '*' :: (body ++ ['*', '/'])) :: ss) =
        '/' :: '*' :: (body ++ '*' :: '/' :: spelling ss) := by
      simp [Stretch.text]
    rw [htext, scanLine, scanLine_comment_closed noEnd, ih]
    rfl
  | @openComment body noEnd =>
    have htext : spelling [.tail ('/' :: '*' :: body)] = '/' :: '*' :: body := by simp [Stretch.text]
    rw [htext, scanLine, scanLine_comment_unclosed noEnd]
    rfl
  | slashes => simp [Stretch.text, Stretch.cells, scanLine]
  | hash => simp [Stretch.text, Stretch.cells, scanLine]

theorem scanLine_of_readsLine {ss : List Stretch} {inComment inComment' : Bool}
    (h : ReadsLine inComment ss inComment') :
    scanLine (entryState inComment) (spelling ss) = ⟨kept ss, inComment'⟩ := by
  cases h with
  | code reads => exact scanLine_of_reads reads
  | @closes body ss _ noEnd rest =>
    have htext : spelling (.comment (body ++ ['*', '/']) :: ss) = body ++ '*' :: '/' :: spelling ss := by
      simp [Stretch.text]
    rw [htext, entryState, if_pos rfl, scanLine_comment_closed noEnd, scanLine_of_reads rest]
    rfl
  | @stays body noEnd =>
    have htext : spelling [.tail body] = body := by simp [Stretch.text]
    rw [htext, entryState, if_pos rfl, scanLine_comment_unclosed noEnd]
    rfl

theorem scanLines_of_readsLines {inComment : Bool} {lines : List Text} {readings : List (List Stretch)}
    (h : ReadsLines inComment lines readings) : scanLines inComment lines = readings.map kept := by
  induction h with
  | nil => rfl
  | cons line _ ih => rw [scanLines, scanLine_of_readsLine line, ih, List.map_cons]

/-! ## The stretches of a line -/

theorem Reads.of_inside {quote : Char} {body body' : Text} {isClosed inComment : Bool} {ss : List Stretch}
    (h : Reads (.literal quote body isClosed :: ss) inComment)
    (hbody : IsInside quote isClosed body → IsInside quote isClosed body') :
    Reads (.literal quote body' isClosed :: ss) inComment := by
  cases h with
  | literal isQuote inside rest => exact .literal isQuote (hbody inside) rest
  | openLiteral isQuote inside => exact .openLiteral isQuote (hbody inside)

/-- What a state goes on with is the text of stretches; in a literal the first of them has begun already. -/
def IsRead : LineState → Text → Prop
  | .code, t => ∃ ss inComment, t = spelling ss ∧ Reads ss inComment
  | .comment, t => ∃ ss inComment, t = spelling ss ∧ ReadsLine true ss inComment
  | .literal quote, t => isLiteralQuote quote = true → ∃ body isClosed ss inComment,
      t = body ++ (Stretch.closing quote isClosed ++ spelling ss) ∧
        Reads (.literal quote body isClosed :: ss) inComment

theorem isRead_comment_cons {c : Char} {t : Text} (hc : c = '*' → t.head? ≠ some '/') (h : IsRead .comment t) :
    IsRead .comment (c :: t) := by
  obtain ⟨ss, inComment, rfl, hreads⟩ := h
  cases hreads with
  | @closes body ss _ noEnd rest =>
    have hbody : c = '*' → body.head? ≠ some '/' := by
      rintro rfl hhead
      obtain ⟨r, rfl⟩ := List.head?_eq_some_iff.1 hhead
      exact hc rfl rfl
    have hclose : Text.contains (c :: body) "*/".toList = false := Text.contains_commentEnd_cons.2 ⟨hbody, noEnd⟩
    exact ⟨.comment (c :: body ++ ['*', '/']) :: ss, _, rfl, .closes hclose rest⟩
  | @stays body noEnd =>
    rw [spelling_cons, spelling_nil, List.append_nil, Stretch.text] at hc ⊢
    exact ⟨[.tail (c :: body)], _, by simp [Stretch.text], .stays (Text.contains_commentEnd_cons.2 ⟨hc, noEnd⟩)⟩

theorem isRead_code_openComment {t : Text} (h : IsRead .comment t) : IsRead .code ('/' :: '*' :: t) := by
  obtain ⟨ss, inComment, rfl, hreads⟩ := h
  cases hreads with
  | @closes body ss _ noEnd rest =>
    exact ⟨.comment ('/' :: '*' :: (body ++ ['*', '/'])) :: ss, _, rfl, .comment noEnd rest⟩
  | @stays body noEnd => exact ⟨[.tail ('/' :: '*' :: body)], _, rfl, .openComment noEnd⟩

/-- From every state the scanner reads stretches, one case for each of its rules. -/
theorem isRead (state : LineState) (t : Text) : IsRead state t := by
  fun_induction scanLine state t with
  | case1 r ih =>
    obtain ⟨ss, inComment, rfl, hreads⟩ := ih
    exact ⟨.comment ([] ++ ['*', '/']) :: ss, inComment, rfl, .closes rfl hreads⟩
  | case2 c r hc ih =>
    refine isRead_comment_cons (fun hstar hhead => ?_) ih
    obtain ⟨r, rfl⟩ := List.head?_eq_some_iff.1 hhead
    exact hc r hstar rfl
  | case3 r => exact ⟨[.tail ('#' :: r)], _, by simp [Stretch.text], .hash⟩
  | case4 r => exact ⟨[.tail ('/' :: '/' :: r)], _, by simp [Stretch.text], .slashes⟩
  | case5 r ih => exact isRead_code_openComment ih
  | case6 c r hhash hslash hstar ih =>
    cases hquote : isLiteralQuote c with
    | true =>
      rw [if_pos hquote] at ih
      obtain ⟨body, isClosed, ss, inComment, rfl, hreads⟩ := ih hquote
      exact ⟨_, _, by simp [Stretch.text], hreads⟩
    | false =>
      rw [hquote, if_neg (by decide)] at ih
      obtain ⟨ss, inComment, rfl, hreads⟩ := ih
      refine ⟨.char c :: ss, inComment, rfl, .char hquote hhash (fun hc => ⟨fun hhead => ?_, fun hhead => ?_⟩) hreads⟩
      · obtain ⟨r, hr⟩ := List.head?_eq_some_iff.1 hhead
        exact hslash r hc hr
      · obtain ⟨r, hr⟩ := List.head?_eq_some_iff.1 hhead
        exact hstar r hc hr
  | case7 quote c r ih =>
    intro hquote
    obtain ⟨body, isClosed, ss, inComment, rfl, hreads⟩ := ih hquote
    exact ⟨'\\' :: c :: body, isClosed, ss, inComment, rfl, hreads.of_inside .escape⟩
  | case8 quote r hescape ih =>
    intro hquote
    obtain ⟨ss, inComment, rfl, hreads⟩ := ih
    exact ⟨[], true, ss, inComment, rfl, .literal hquote .nil hreads⟩
  | case9 quote c r hescape hne ih =>
    intro hquote
    by_cases hback : c = '\\'
    · subst hback
      cases r with
      | nil => exact ⟨['\\'], false, [], false, rfl, .openLiteral hquote .dangling⟩
      | cons d r => exact absurd rfl (hescape d r rfl)
    · obtain ⟨body, isClosed, ss, inComment, rfl, hreads⟩ := ih hquote
      exact ⟨c :: body, isClosed, ss, inComment, rfl, hreads.of_inside (.char hne hback)⟩
  | case10 => exact ⟨[.tail []], true, rfl, .stays rfl⟩
  | case11 => exact ⟨[], false, rfl, .nil⟩
  | case12 quote => exact fun hquote => ⟨[], false, [], false, rfl, .openLiteral hquote .nil⟩

theorem exists_readsLine (inComment : Bool) (line : Text) :
    ∃ ss inComment', line = spelling ss ∧ ReadsLine inComment ss inComment' := by
  cases inComment with
  | true => exact isRead .comment line
  | false =>
    obtain ⟨ss, inComment', rfl, hreads⟩ := isRead .code line
    exact ⟨ss, inComment', rfl, .code hreads⟩

/-- Every list of lines is the text of stretches. -/
theorem exists_readsLines (inComment : Bool) (lines : List Text) :
    ∃ readings, ReadsLines inComment lines readings := by
  induction lines generalizing inComment with
  | nil => exact ⟨[], .nil⟩
  | cons line lines ih =>
    obtain ⟨ss, inComment', rfl, hline⟩ := exists_readsLine inComment line
    obtain ⟨readings, hrest⟩ := ih inComment'
    exact ⟨ss :: readings, .cons hline hrest⟩

end ThriftModules.Idl
