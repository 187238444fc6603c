import ThriftModules.Script.Statement
import ThriftModules.Proofs.Script.Piece

/-!
# The statement scanner over pieces

* `Scanner.passed`, `Scanner.started` : the scan after more text of the statement being read, and with a statement open;
* `Piece.depth?`, `Piece.ends`, `Piece.inside?` : the depth after a piece, whether the piece can end a statement, and
  the depth after a piece that cannot;
* `Scanner.run_inside` : pieces that cannot end a statement are read into the one that is open;
* `Scanner.run_spacing` : blanks and comments in front of a statement are skipped;
* `Scanner.run_semicolon`, `Scanner.run_brace_semicolon` : the two ways a statement ends in front of a semicolon.
-/

namespace ThriftModules.Script

set_option autoImplicit false

/-! ## Depth -/

namespace Piece

/-- The bracket depth after a piece; none where it would fall below zero. -/
def depth? (d : Nat) : Piece → Option Nat
  | code c =>
    if isOpening c then some (d + 1) else if isClosing c then (if d = 0 then none else some (d - 1)) else some d
  | _ => some d

/-- Whether a piece can end the statement it stands in: a semicolon outside brackets, or a brace that closes the
outermost bracket. -/
def ends (d : Nat) : Piece → Bool
  | code c => (c == ';' && d == 0) || (c == '}' && d == 1)
  | _ => false

/-- The bracket depth after a piece that cannot end its statement. -/
def inside? (d : Nat) (p : Piece) : Option Nat := if p.ends d then none else p.depth? d

theorem inside?_eq_some {d d' : Nat} {p : Piece} :
    p.inside? d = some d' ↔ p.ends d = false ∧ p.depth? d = some d' := by
  rw [inside?, Option.ite_none_left_eq_some, Bool.not_eq_true]

def isSpacing : Piece → Bool
  | code c => Text.isAsciiBlank c
  | literal _ _ => false
  | _ => true

/-- One level down, no piece of a balanced text can end the statement. -/
theorem inside?_of_depth? {d d' : Nat} {p : Piece} (h : p.depth? d = some d') (k : Nat) :
    p.inside? (d + k + 1) = some (d' + k + 1) := by
  cases p with
  | code c =>
    simp only [depth?] at h
    simp only [inside?, ends, depth?]
    split at h
    · next ho =>
      cases h
      have hc : c ≠ '}' := by rintro rfl; exact absurd ho (by decide)
      simp [ho, hc]; omega
    · next ho =>
      split at h
      · next hcl =>
        split at h
        · cases h
        · next hd =>
          cases h
          simp [ho, hcl]; omega
      · next hcl =>
        cases h
        have hc : c ≠ '}' := by rintro rfl; exact absurd hcl (by decide)
        simp [ho, hcl, hc]
  | literal _ _ => cases h; rfl
  | lineComment _ => cases h; rfl
  | blockComment _ => cases h; rfl

end Piece

/-- The bracket depth after pieces; none where it would fall below zero. -/
def depthAfter? (d : Nat) (ps : List Piece) : Option Nat := ps.foldlM Piece.depth? d

/-- The bracket depth after pieces none of which can end their statement. -/
def depthInside? (d : Nat) (ps : List Piece) : Option Nat := ps.foldlM Piece.inside? d

theorem depthInside?_append {d e f : Nat} {ps qs : List Piece} (hp : depthInside? d ps = some e)
    (hq : depthInside? e qs = some f) : depthInside? d (ps ++ qs) = some f := by
  rw [depthInside?, List.foldlM_append]
  exact Option.bind_eq_some_iff.2 ⟨e, hp, hq⟩

theorem depthInside?_of_depthAfter? {d d' : Nat} {ps : List Piece} (h : depthAfter? d ps = some d') (k : Nat) :
    depthInside? (d + k + 1) ps = some (d' + k + 1) := by
  induction ps generalizing d with
  | nil => cases h; rfl
  | cons p ps ih =>
    obtain ⟨e, he, hr⟩ := Option.bind_eq_some_iff.1 (by simpa [depthAfter?] using h)
    rw [depthInside?, List.foldlM_cons]
    exact Option.bind_eq_some_iff.2 ⟨e + k + 1, Piece.inside?_of_depth? he k, ih hr⟩

theorem depthInside?_of_balanced {ps : List Piece} (h : depthAfter? 0 ps = some 0) (d : Nat) :
    depthInside? (d + 1) ps = some (d + 1) := by
  simpa using depthInside?_of_depthAfter? h d

/-- Code without brackets and semicolons leaves the depth as it is. -/
theorem depthInside?_codes {t : Text} (h : ∀ c ∈ t, isOpening c = false ∧ isClosing c = false ∧ c ≠ ';') (d : Nat) :
    depthInside? d (codes t) = some d := by
  induction t with
  | nil => rfl
  | cons c t ih =>
    obtain ⟨ho, hc, hs⟩ := h c (by simp)
    have hb : c ≠ '}' := by rintro rfl; exact absurd hc (by decide)
    have hp : (Piece.code c).inside? d = some d := by simp [Piece.inside?, Piece.ends, Piece.depth?, ho, hc, hs, hb]
    rw [depthInside?, codes, List.map_cons, List.foldlM_cons, hp]
    exact ih fun x hx => h x (by simp [hx])

/-! ## The scanner over pieces -/

theorem byteLength_append (a b : Text) : Text.byteLength (a ++ b) = Text.byteLength a + Text.byteLength b := by
  induction a with
  | nil => simp [Text.byteLength]
  | cons c a ih => simp [Text.byteLength, ih, Nat.add_assoc]

namespace Scanner

/-- The scan after a text that changes no depth; an open statement takes it in. -/
def passed (s : Scanner) (t : Text) : Scanner :=
  ⟨s.offset + Text.byteLength t, s.depth, s.current.map fun o => { o with read := t.reverse ++ o.read }⟩

def started (s : Scanner) : Scanner := { s with current := some (s.current.getD ⟨s.offset, []⟩) }

theorem passed_append (s : Scanner) (a b : Text) : s.passed (a ++ b) = (s.passed a).passed b := by
  cases s with
  | mk offset depth current => cases current <;> simp [passed, byteLength_append, Nat.add_assoc]

theorem depth_eta {s : Scanner} {d : Nat} (h : s.depth = d) : { s with depth := d } = s := by
  cases h
  rfl

@[simp] theorem passed_depth (s : Scanner) (t : Text) : (s.passed t).depth = s.depth := rfl

@[simp] theorem isSome_current_passed (s : Scanner) (t : Text) :
    (s.passed t).current.isSome = s.current.isSome := by simp [passed]

theorem passed_nil (s : Scanner) : s.passed [] = s := by
  cases s with
  | mk offset depth current => cases current <;> simp [passed, Text.byteLength]

theorem started_of_isSome {s : Scanner} (h : s.current.isSome = true) : s.started = s := by
  cases s with
  | mk offset depth current =>
    cases current with
    | none => cases h
    | some o => rfl

theorem some_extended (s : Scanner) (c : Char) : some (s.extended c) = (s.started.passed [c]).current := by
  cases s with
  | mk offset depth current => cases current <;> rfl

theorem run_comment (s : Scanner) (t : Text) (rest : List Mark) :
    s.run (t.map (⟨·, .comment⟩) ++ rest) = (s.passed t).run rest := by
  induction t generalizing s with
  | nil => rw [List.map_nil, List.nil_append, passed_nil]
  | cons c t ih =>
    have hstep : s.step ⟨c, .comment⟩ (t.map (⟨·, .comment⟩) ++ rest) = ([], s.passed [c]) := by
      simp [step, passed, continued, Text.byteLength]
    rw [List.map_cons, List.cons_append, run, hstep, List.nil_append, ih, ← passed_append]
    rfl

theorem run_literal {s : Scanner} (h : s.current.isSome = true) (t : Text) (rest : List Mark) :
    s.run (t.map (⟨·, .literal⟩) ++ rest) = (s.passed t).run rest := by
  induction t generalizing s with
  | nil => rw [List.map_nil, List.nil_append, passed_nil]
  | cons c t ih =>
    have hstep : s.step ⟨c, .literal⟩ (t.map (⟨·, .literal⟩) ++ rest) = ([], s.passed [c]) := by
      simp [step, some_extended, started_of_isSome h, passed, Text.byteLength]
    rw [List.map_cons, List.cons_append, run, hstep, List.nil_append, ih (by simpa using h), ← passed_append]
    rfl

theorem stepCode_inside {s : Scanner} {c : Char} {d : Nat} (h : (Piece.code c).inside? s.depth = some d)
    (hs : s.current.isSome = true) (rest : List Mark) :
    s.stepCode c rest = ([], { s with depth := d }.passed [c]) := by
  have hext : some (s.extended c) = s.continued c := by
    rw [some_extended, started_of_isSome hs]
    rfl
  obtain ⟨hends, hd⟩ := Piece.inside?_eq_some.1 h
  simp only [Piece.ends, Bool.or_eq_false_iff, Bool.and_eq_false_imp, beq_iff_eq, beq_eq_false_iff_ne] at hends
  obtain ⟨hsemi, hbrace⟩ := hends
  rw [Piece.depth?] at hd
  have hpass : { s with depth := d }.passed [c] = ⟨s.offset + c.utf8Size, d, s.continued c⟩ := by
    simp [passed, continued, Text.byteLength]
  rw [hpass, stepCode, hext]
  split at hd
  · next ho =>
    cases hd
    rw [if_pos ho]
  · next ho =>
    rw [if_neg ho]
    split at hd
    · next hc =>
      split at hd
      · cases hd
      · next h0 =>
        cases hd
        -- the outermost brace is excluded, so the look ahead is never asked
        have hb : (c == '}' && decide (s.depth ≤ 1) && endsBlock (rest.map Mark.char)) = false := by
          by_cases e : c = '}'
          · have := hbrace e
            have hle : ¬ s.depth ≤ 1 := by omega
            simp [hle]
          · simp [e]
        rw [if_pos hc, if_neg (by rw [hb]; decide)]
    · next hc =>
      cases hd
      rw [if_neg hc, if_neg fun e => hsemi e.1 e.2]
      split <;> rfl

theorem run_piece {s : Scanner} {p : Piece} {d : Nat} (h : p.inside? s.depth = some d) (hs : s.current.isSome = true)
    (rest : List Mark) : s.run (p.marks ++ rest) = ({ s with depth := d }.passed p.text).run rest := by
  have hchar : ∀ {s : Scanner} {c : Char} {d : Nat} (_ : (Piece.code c).inside? s.depth = some d)
      (_ : s.current.isSome = true), s.run (⟨c, .code⟩ :: rest) = ({ s with depth := d }.passed [c]).run rest := by
    intro s c d h hs
    rw [run, step, stepCode_inside h hs]
    rfl
  cases p with
  | code c => exact hchar h hs
  | literal quote body =>
    cases h
    rw [Piece.marks, run_literal hs]
    rfl
  | lineComment body =>
    cases h
    rw [Piece.marks, List.append_assoc, run_comment, List.singleton_append,
      hchar (d := s.depth) rfl (by simpa using hs)]
    rw [show Piece.text (.lineComment body) = ('/' :: '/' :: body) ++ ['\n'] by simp [Piece.text], passed_append]
    rfl
  | blockComment body =>
    cases h
    rw [Piece.marks, run_comment]
    rfl

/-- Pieces none of which can end the open statement are read into it. -/
theorem run_inside {s : Scanner} {ps : List Piece} {d : Nat} (h : depthInside? s.depth ps = some d)
    (hs : s.current.isSome = true) (rest : List Mark) :
    s.run (ps.flatMap Piece.marks ++ rest) = ({ s with depth := d }.passed (texts ps)).run rest := by
  induction ps generalizing s with
  | nil =>
    cases h
    rw [texts_nil, passed_nil]
    rfl
  | cons p ps ih =>
    obtain ⟨e, he, hr⟩ := Option.bind_eq_some_iff.1 (by simpa [depthInside?] using h)
    have hnext : depthInside? ({ s with depth := e }.passed p.text).depth ps = some d := hr
    rw [List.flatMap_cons, List.append_assoc, run_piece he hs, ih hnext (by simpa using hs), texts_cons, passed_append]
    rfl

theorem not_bracket_of_isAsciiBlank {c : Char} (h : Text.isAsciiBlank c = true) :
    isOpening c = false ∧ isClosing c = false ∧ c ≠ ';' := by
  simp only [Text.isAsciiBlank, Bool.or_eq_true, beq_iff_eq] at h
  rcases h with (((rfl | rfl) | rfl) | rfl) | rfl <;> decide

theorem run_blank (s : Scanner) {c : Char} (hc : Text.isAsciiBlank c = true) (rest : List Mark) :
    s.run (⟨c, .code⟩ :: rest) = (s.passed [c]).run rest := by
  have hstep : s.stepCode c rest = ([], s.passed [c]) := by
    have hno := not_bracket_of_isAsciiBlank hc
    simp [stepCode, hno.1, hno.2.1, hno.2.2, hc, passed, continued, Text.byteLength]
  rw [run, step, hstep]
  rfl

theorem run_spacing {s : Scanner} {ps : List Piece} (h : ps.all Piece.isSpacing = true) (hs : s.current = none)
    (rest : List Mark) : s.run (ps.flatMap Piece.marks ++ rest) = (s.passed (texts ps)).run rest := by
  induction ps generalizing s with
  | nil =>
    rw [texts_nil, passed_nil]
    rfl
  | cons p ps ih =>
    obtain ⟨hp, hps⟩ := Bool.and_eq_true_iff.1 (List.all_cons ▸ h)
    have hn : ∀ t, (s.passed t).current = none := fun t => by rw [passed, hs]; rfl
    rw [List.flatMap_cons, List.append_assoc, texts_cons, passed_append, ← ih hps (hn p.text)]
    cases p with
    | code c => exact run_blank s hp _
    | literal quote body => cases hp
    | lineComment body =>
      rw [Piece.marks, List.append_assoc, run_comment, List.singleton_append, run_blank _ (by decide),
        ← passed_append]
      simp [Piece.text]
    | blockComment body =>
      rw [Piece.marks, run_comment]
      rfl

/-! ## One statement -/

theorem run_semicolon {s : Scanner} (h : s.depth = 0) (rest : List Mark) :
    s.run (⟨';', .code⟩ :: rest) = s.pending ++ (⟨s.offset + 1, 0, none⟩ : Scanner).run rest := by
  have hstep : s.stepCode ';' rest = (s.pending, ⟨s.offset + 1, 0, none⟩) := by
    rw [stepCode, if_neg (by decide), if_neg (by decide), if_pos ⟨rfl, h⟩]
    rfl
  rw [run, step, hstep]

/-- The outermost brace in front of a semicolon leaves the statement open. -/
theorem run_brace_semicolon {s : Scanner} (h : s.depth = 1) (rest : List Mark) :
    s.run (⟨'}', .code⟩ :: ⟨';', .code⟩ :: rest) = ({ s with depth := 0 }.passed ['}']).run (⟨';', .code⟩ :: rest) := by
  have hlook : endsBlock ((⟨';', .code⟩ :: rest : List Mark).map Mark.char) = false := by
    have htrim : Text.trimStart (';' :: rest.map Mark.char) = ';' :: rest.map Mark.char :=
      List.dropWhile_cons_of_neg (by decide)
    rw [List.map_cons, endsBlock, htrim]
    rfl
  have hstep : s.stepCode '}' (⟨';', .code⟩ :: rest) = ([], { s with depth := 0 }.passed ['}']) := by
    rw [stepCode, if_neg (by decide), if_pos (by decide), if_neg (by rw [hlook]; simp)]
    simp [passed, continued, Text.byteLength, h]
  rw [run, step, hstep]
  rfl

end Scanner
end ThriftModules.Script
