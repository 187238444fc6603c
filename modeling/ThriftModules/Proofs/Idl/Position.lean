import ThriftModules.Idl.Source
import ThriftModules.Proofs.Text.Lines

/-!
# Where the line scanner stands in a text

* `scanRest` : the cells of the lines of a text that is entered in a given state (`scanLines_lines`);
* `next?`, `moves` : the scanner over a whole text, from line to line, one move and many;
* `StandsInCode` : the scanner comes to a place of the text outside comments and literals;
* `Leaves` : what the scanner leaves of the text that a move reads, in front of every text that starts the same;
* `leaves_next?`, `exists_leaves` : one move leaves cells of its own, and so do the moves up to a place.
-/

namespace ThriftModules.Idl

set_option autoImplicit false

open Text (IsInLine dropReturn)

/-! ## Scanning the rest of a text -/

/-- The cells of the lines of `t`, where its first line is entered in `state`; an empty text is one line here. -/
def scanRest (state : LineState) (t : Text) : List (List Cell) :=
  match t.lines with
  | [] => [(scanLine state []).cells]
  | l :: ls => (scanLine state l).cells :: scanLines (scanLine state l).inComment ls

def push (cells : List Cell) : List (List Cell) → List (List Cell)
  | [] => [cells]
  | l :: ls => (cells ++ l) :: ls

theorem scanRest_ne_nil (state : LineState) (t : Text) : scanRest state t ≠ [] := by
  rw [scanRest]
  split <;> simp

theorem push_nil {ls : List (List Cell)} (h : ls ≠ []) : push [] ls = ls := by
  cases ls with
  | nil => exact absurd rfl h
  | cons l ls => rfl

theorem push_append (p q : List Cell) (ls : List (List Cell)) : push (p ++ q) ls = push p (push q ls) := by
  cases ls <;> simp [push]

theorem push_append_right {done ls : List (List Cell)} (h : done ≠ []) (p : List Cell) :
    push p (done ++ ls) = push p done ++ ls := by
  cases done with
  | nil => exact absurd rfl h
  | cons l done => rfl

theorem scanLines_lines (inComment : Bool) {t : Text} (h : t ≠ []) :
    scanLines inComment t.lines = scanRest (entryState inComment) t := by
  rw [scanRest]
  cases hl : t.lines with
  | nil => exact absurd hl (Text.lines_ne_nil h)
  | cons l ls => rfl

def lineStart : LineState → LineState
  | .comment => .comment
  | _ => .code

theorem entryState_inComment (state : LineState) : entryState (scanLine state []).inComment = lineStart state := by
  cases state <;> rfl

theorem cells_nil (state : LineState) : (scanLine state []).cells = [] := by
  cases state <;> rfl

theorem scanRest_newline (state : LineState) {r : Text} (h : r ≠ []) :
    scanRest state ('\n' :: r) = [] :: scanRest (lineStart state) r := by
  rw [scanRest, Text.lines_newline]
  simp only [cells_nil, scanLines_lines _ h, entryState_inComment]

theorem scanRest_return (state : LineState) (r : Text) :
    scanRest state ('\r' :: '\n' :: r) = scanRest state ('\n' :: r) := by
  rw [scanRest, scanRest, Text.lines_return, Text.lines_newline]

theorem scanRest_append {state next : LineState} {x r : Text} {p : List Cell} (hne : x ≠ []) (hx : IsInLine x r)
    (h : ∀ l, (l = [] ∨ l.head? = r.head? ∧ l.head? ≠ some '\n') →
      scanLine state (x ++ l) = ⟨p ++ (scanLine next l).cells, (scanLine next l).inComment⟩) :
    scanRest state (x ++ r) = push p (scanRest next r) := by
  rw [scanRest, scanRest, Text.lines_append hne hx]
  cases hl : r.lines with
  | nil =>
    have hnil := h [] (Or.inl rfl)
    rw [List.append_nil] at hnil
    simp [hnil, push, scanLines]
  | cons l ls => simp [h l (Text.head?_line hl), push]

theorem scanRest_lineComment {opener body r : Text} (ho : opener ≠ []) (hon : '\n' ∉ opener) (hb : '\n' ∉ body)
    (hlast : opener.getLast? ≠ some '\r') (h : ∀ l, scanLine .code (opener ++ l) = ⟨[], false⟩)
    (hr : r = [] ∨ r.head? = some '\n') : scanRest .code (opener ++ (body ++ r)) = scanRest .code r := by
  have hn : '\n' ∉ opener ++ body := fun hc => (List.mem_append.1 hc).elim hon hb
  obtain - | ⟨d, r⟩ := r
  · have hl : (opener ++ body).lines = [opener ++ body] := by
      have hin : IsInLine (opener ++ body) [] := ⟨hn, by simp⟩
      have happ := Text.lines_append (by simp [ho]) hin
      simpa [Text.lines] using happ
    rw [List.append_nil, scanRest, hl]
    simp only [h]
    rfl
  · obtain rfl : d = '\n' := by simpa using hr
    -- the carriage return at the end of the line belongs to the body, if there is one
    have hdrop : ∃ l, dropReturn (opener ++ body) = opener ++ l := by
      by_cases hbody : body = []
      · exact ⟨[], by simp [hbody, dropReturn, hlast]⟩
      · exact ⟨_, Text.dropReturn_append hbody⟩
    obtain ⟨l, hl⟩ := hdrop
    rw [← List.append_assoc, scanRest, scanRest, Text.lines_append_newline hn, Text.lines_newline, hl]
    simp only [h]
    rfl

/-! ## Moves -/

/-- The scanner's next move in a text: the state and the text that it goes on with. -/
def next? : LineState → Text → Option (LineState × Text)
  | _, [] => none
  | state, '\n' :: r => some (lineStart state, r)
  | state, '\r' :: '\n' :: r => some (lineStart state, r)
  | .comment, '*' :: '/' :: r => some (.code, r)
  | .comment, _ :: r => some (.comment, r)
  | .code, '#' :: r => some (.code, r.dropWhile (· != '\n'))
  | .code, '/' :: '/' :: r => some (.code, r.dropWhile (· != '\n'))
  | .code, '/' :: '*' :: r => some (.comment, r)
  | .code, c :: r => some (if isLiteralQuote c then .literal c else .code, r)
  | .literal quote, '\\' :: c :: r =>
    some (.literal quote, if c = '\n' then c :: r else r)
  | .literal quote, c :: r => some (if c = quote then .code else .literal quote, r)

/-- The state and the text that the scanner goes on with after `n` moves. -/
def moves : Nat → LineState × Text → Option (LineState × Text)
  | 0, place => some place
  | n + 1, place => (next? place.1 place.2).bind (moves n)

/-- The scanner comes to `rest` outside comments and literals when it reads `t` from the start. -/
def StandsInCode (t rest : Text) : Prop := ∃ n, moves n (.code, t) = some (.code, rest)

/-! ## What moves leave -/

/-- In front of every text that starts as `rest` does, `x` leaves the closed lines `done` and the cells `p` of an open
line, and takes the scanner from `state` to `next`. -/
def Leaves (state : LineState) (x : Text) (next : LineState) (rest : Text) (done : List (List Cell)) (p : List Cell) :
    Prop :=
  ∀ r, r ≠ [] → r.head? = rest.head? → scanRest state (x ++ r) = done ++ push p (scanRest next r)

theorem Leaves.of_cells {state next : LineState} {x rest : Text} {p : List Cell} (hne : x ≠ []) (hx : IsInLine x rest)
    (h : ∀ l, (l = [] ∨ l.head? = rest.head? ∧ l.head? ≠ some '\n') →
      scanLine state (x ++ l) = ⟨p ++ (scanLine next l).cells, (scanLine next l).inComment⟩) :
    Leaves state x next rest [] p := by
  intro r _ hr
  rw [List.nil_append]
  refine scanRest_append hne ⟨hx.1, by rw [hr]; exact hx.2⟩ fun l hl => h l ?_
  rwa [hr] at hl

theorem Leaves.of_lineComment {opener r : Text} (ho : opener ≠ []) (hon : '\n' ∉ opener)
    (hlast : opener.getLast? ≠ some '\r') (h : ∀ l, scanLine .code (opener ++ l) = ⟨[], false⟩) :
    Leaves .code (opener ++ r.takeWhile (· != '\n')) .code (r.dropWhile (· != '\n')) [] [] := by
  intro w hw hhead
  have hb : '\n' ∉ r.takeWhile (· != '\n') := fun hc => by
    have hall := List.all_takeWhile (p := (· != '\n')) (l := r)
    exact absurd (List.all_eq_true.1 hall _ hc) (by decide)
  have hn : w.head? = some '\n' := by
    rw [hhead]
    have hd := List.head?_dropWhile_not (· != '\n') r
    cases he : (r.dropWhile (· != '\n')).head? with
    | none => exact absurd (List.head?_eq_none_iff.1 (hhead.trans he)) hw
    | some d =>
      rw [he] at hd
      simpa using hd
  rw [List.append_assoc, scanRest_lineComment ho hon hb hlast h (Or.inr hn), push_nil (scanRest_ne_nil _ _)]
  rfl

theorem leaves_newline (state : LineState) (rest : Text) : Leaves state ['\n'] (lineStart state) rest [[]] [] := by
  intro r hr _
  rw [List.singleton_append, scanRest_newline state hr, push_nil (scanRest_ne_nil _ _)]
  rfl

theorem leaves_return (state : LineState) (rest : Text) : Leaves state ['\r', '\n'] (lineStart state) rest [[]] [] := by
  intro r hr _
  rw [List.cons_append, List.singleton_append, scanRest_return, scanRest_newline state hr,
    push_nil (scanRest_ne_nil _ _)]
  rfl

theorem exists_of_head? {l r : Text} (hl : l = [] ∨ l.head? = r.head? ∧ l.head? ≠ some '\n') {d : Char} {l' : Text}
    (h : l = d :: l') : ∃ r', r = d :: r' := by
  subst h
  exact List.head?_eq_some_iff.1 (hl.resolve_left (by simp)).1.symm

/-- A character in front of `r` that ends no line. -/
structure EndsNoLine (c : Char) (r : Text) : Prop where
  ne : c ≠ '\n'
  return_ne : ∀ r', c = '\r' → r = '\n' :: r' → False

theorem EndsNoLine.isInLine {c : Char} {r : Text} (h : EndsNoLine c r) : IsInLine [c] r := by
  refine ⟨by simpa using Ne.symm h.ne, fun hr => ?_⟩
  obtain ⟨r', hr'⟩ := List.head?_eq_some_iff.1 hr.2
  exact h.return_ne r' (by simpa using hr.1) hr'

section
variable {c quote : Char} {r : Text}

theorem leaves_commentChar (h : EndsNoLine c r) (hc : ∀ r', c = '*' → r = '/' :: r' → False) :
    Leaves .comment [c] .comment r [] [] := by
  apply Leaves.of_cells (by simp) h.isInLine
  intro l hl
  rw [List.singleton_append, scanLine]
  · rfl
  · intro l' hstar he
    obtain ⟨r', hr'⟩ := exists_of_head? hl he
    exact hc r' hstar hr'

theorem leaves_codeChar (h : EndsNoLine c r) (hhash : c = '#' → False) (hslash : ∀ r', c = '/' → r = '/' :: r' → False)
    (hstar : ∀ r', c = '/' → r = '*' :: r' → False) :
    Leaves .code [c] (if isLiteralQuote c then .literal c else .code) r [] [.plain c] := by
  apply Leaves.of_cells (by simp) h.isInLine
  intro l hl
  rw [List.singleton_append, scanLine]
  · rfl
  · exact hhash
  · intro l' hc he
    obtain ⟨r', hr'⟩ := exists_of_head? hl he
    exact hslash r' hc hr'
  · intro l' hc he
    obtain ⟨r', hr'⟩ := exists_of_head? hl he
    exact hstar r' hc hr'

theorem leaves_literalChar (h : EndsNoLine c r) (hc : ∀ d r', c = '\\' → r = d :: r' → False) :
    Leaves (.literal quote) [c] (if c = quote then .code else .literal quote) r []
      [if c = quote then .plain c else .hidden c] := by
  apply Leaves.of_cells (by simp) h.isInLine
  intro l hl
  rw [List.singleton_append, scanLine]
  · split <;> rfl
  · intro d l' hback he
    obtain ⟨r', hr'⟩ := exists_of_head? hl he
    exact hc d r' hback hr'

/-- A backslash takes the next character along, but nothing over the end of the line. -/
theorem leaves_escape (quote c : Char) (r : Text) :
    ∃ x done p, '\\' :: c :: r = x ++ (if c = '\n' then c :: r else r) ∧ x ≠ [] ∧
      Leaves (.literal quote) x (.literal quote) (if c = '\n' then c :: r else r) done p := by
  have hlast : scanLine (.literal quote) ['\\'] = ⟨[if '\\' = quote then .plain '\\' else .hidden '\\'], false⟩ := by
    rw [scanLine]
    · split <;> rfl
    · rintro d r' _ ⟨⟩
  by_cases hn : c = '\n'
  · subst hn
    refine ⟨['\\'], _, [if '\\' = quote then .plain '\\' else .hidden '\\'], rfl, by simp,
      Leaves.of_cells (by simp) ⟨by decide, by simp⟩ fun l hl => ?_⟩
    obtain rfl : l = [] := hl.resolve_right fun h => h.2 h.1
    rw [List.append_nil, hlast]
    rfl
  · rw [if_neg hn]
    refine ⟨['\\', c], [], ?_⟩
    by_cases hr : c = '\r' ∧ r.head? = some '\n'
    · -- the carriage return is part of the line end
      refine ⟨[if '\\' = quote then .plain '\\' else .hidden '\\'], rfl, by simp, fun w _ hw => ?_⟩
      obtain ⟨rfl, hr⟩ := hr
      obtain ⟨w, rfl⟩ := List.head?_eq_some_iff.1 (hw.trans hr)
      have hline : dropReturn ['\\', '\r'] = ['\\'] := rfl
      rw [scanRest, scanRest, Text.lines_append_newline (by decide), Text.lines_newline, hline]
      simp only [hlast]
      rfl
    · refine ⟨[.hidden '\\', .hidden c], rfl, by simp, Leaves.of_cells (by simp) ⟨?_, ?_⟩ fun l hl => ?_⟩
      · simpa using Ne.symm hn
      · simpa using hr
      · simp [scanLine, ScannedLine.cons]

theorem leaves_lineComment {opener : Text} (ho : opener ≠ []) (hon : '\n' ∉ opener)
    (hlast : opener.getLast? ≠ some '\r') (h : ∀ l, scanLine .code (opener ++ l) = ⟨[], false⟩) (r : Text) :
    ∃ x done p, opener ++ r = x ++ r.dropWhile (· != '\n') ∧ x ≠ [] ∧
      Leaves .code x .code (r.dropWhile (· != '\n')) done p := by
  refine ⟨opener ++ r.takeWhile (· != '\n'), _, _, ?_, by simp [ho], Leaves.of_lineComment ho hon hlast h⟩
  rw [List.append_assoc, List.takeWhile_append_dropWhile]

end

/-- One move leaves cells that do not depend on what follows beyond its first character. -/
theorem leaves_next? {state next : LineState} {t rest : Text} (h : next? state t = some (next, rest)) :
    ∃ x done p, t = x ++ rest ∧ x ≠ [] ∧ Leaves state x next rest done p := by
  revert h
  fun_cases next? state t with
  | case1 => intro h; cases h
  | case2 r =>
    rintro ⟨⟩
    exact ⟨['\n'], _, _, rfl, by simp, leaves_newline state rest⟩
  | case3 r =>
    rintro ⟨⟩
    exact ⟨['\r', '\n'], _, _, rfl, by simp, leaves_return state rest⟩
  | case4 r =>
    rintro ⟨⟩
    refine ⟨['*', '/'], _, [.plain ' '], rfl, by simp, Leaves.of_cells (by simp) ⟨by decide, by simp⟩ fun l _ => ?_⟩
    simp [scanLine, ScannedLine.cons]
  | case5 c r hn hr hc =>
    rintro ⟨⟩
    exact ⟨[c], _, _, rfl, by simp, leaves_commentChar ⟨hn, hr⟩ hc⟩
  | case6 r =>
    rintro ⟨⟩
    exact leaves_lineComment (List.cons_ne_nil '#' []) (by simp) (by simp) (fun l => by simp [scanLine]) r
  | case7 r =>
    rintro ⟨⟩
    exact leaves_lineComment (List.cons_ne_nil '/' ['/']) (by simp) (by simp) (fun l => by simp [scanLine]) r
  | case8 r =>
    rintro ⟨⟩
    refine ⟨['/', '*'], _, [], rfl, by simp, Leaves.of_cells (by simp) ⟨by decide, by simp⟩ fun l _ => ?_⟩
    simp [scanLine]
  | case9 c r hn hr hhash hslash hstar =>
    rintro ⟨⟩
    exact ⟨[c], _, _, rfl, by simp, leaves_codeChar ⟨hn, hr⟩ hhash hslash hstar⟩
  | case10 quote c r =>
    rintro ⟨⟩
    exact leaves_escape quote c r
  | case11 quote c r hn hr hc =>
    rintro ⟨⟩
    exact ⟨[c], _, _, rfl, by simp, leaves_literalChar ⟨hn, hr⟩ hc⟩

theorem exists_of_moves {n : Nat} {state next : LineState} {t rest : Text}
    (h : moves n (state, t) = some (next, rest)) : ∃ x, t = x ++ rest := by
  induction n generalizing state t with
  | zero =>
    cases h
    exact ⟨[], rfl⟩
  | succ n ih =>
    obtain ⟨⟨s, u⟩, hnext, hmoves⟩ := Option.bind_eq_some_iff.1 h
    obtain ⟨x, -, -, rfl, -, -⟩ := leaves_next? hnext
    obtain ⟨y, rfl⟩ := ih hmoves
    exact ⟨x ++ y, (List.append_assoc _ _ _).symm⟩

theorem leaves_nil (state : LineState) (rest : Text) : Leaves state [] state rest [] [] :=
  fun _ _ _ => (push_nil (scanRest_ne_nil _ _)).symm

theorem Leaves.of_head?_eq {state next : LineState} {x rest rest' : Text} {done : List (List Cell)} {p : List Cell}
    (h : Leaves state x next rest done p) (hhead : rest'.head? = rest.head?) : Leaves state x next rest' done p :=
  fun r hr hr' => h r hr (hr'.trans hhead)

/-- The cells of `x` go in front of the first line that `y` leaves, closed or open. -/
theorem Leaves.append {state mid next : LineState} {x y rest : Text} {done done' : List (List Cell)} {p p' : List Cell}
    (hx : Leaves state x mid (y ++ rest) done p) (hy : Leaves mid y next rest done' p') :
    Leaves state (x ++ y) next rest (if done' = [] then done else done ++ push p done')
      (if done' = [] then p ++ p' else p') := by
  intro r hr hhead
  have hjoin : scanRest state (x ++ y ++ r) = done ++ push p (done' ++ push p' (scanRest next r)) := by
    rw [List.append_assoc, hx (y ++ r) (by simp [hr]), hy r hr hhead]
    rw [List.head?_append, List.head?_append, hhead]
  split
  next hd => rw [hjoin, hd, List.nil_append, push_append]
  next hd => rw [hjoin, push_append_right hd, List.append_assoc]

/-- What the moves up to `rest` leave does not depend on what stands there beyond its first character. -/
theorem exists_leaves {n : Nat} {state : LineState} {before rest : Text}
    (h : moves n (state, before ++ rest) = some (.code, rest)) :
    ∃ done p, Leaves state before .code rest done p := by
  induction n generalizing state before with
  | zero =>
    simp only [moves, Option.some.injEq, Prod.mk.injEq] at h
    obtain ⟨rfl, hb⟩ := h
    obtain rfl : before = [] := List.append_left_eq_self.1 hb
    exact ⟨[], [], leaves_nil _ _⟩
  | succ n ih =>
    obtain ⟨⟨next, t⟩, hnext, hmoves⟩ := Option.bind_eq_some_iff.1 h
    obtain ⟨x, done, p, hx, -, hleaves⟩ := leaves_next? hnext
    obtain ⟨y, rfl⟩ := exists_of_moves hmoves
    rw [← List.append_assoc] at hx
    obtain rfl : before = x ++ y := List.append_cancel_right hx
    obtain ⟨done', p', hrec⟩ := ih hmoves
    exact ⟨_, _, hleaves.append hrec⟩

/-- A place where the scanner stands in code: what it leaves of the text before it, whatever follows. -/
theorem StandsInCode.exists_scanLines {before rest : Text} (h : StandsInCode (before ++ rest) rest) :
    ∃ done p, ∀ r, r ≠ [] → r.head? = rest.head? →
      scanLines false (before ++ r).lines = done ++ push p (scanRest .code r) := by
  obtain ⟨n, hmoves⟩ := h
  obtain ⟨done, p, hleaves⟩ := exists_leaves hmoves
  refine ⟨done, p, fun r hr hhead => ?_⟩
  rw [scanLines_lines false (by simp [hr])]
  exact hleaves r hr hhead

end ThriftModules.Idl
