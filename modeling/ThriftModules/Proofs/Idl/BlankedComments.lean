import Mathlib.Data.List.Basic
import ThriftModules.Proofs.Idl.Comments

/-!
# A block comment reads as one blank

* `EndsInCode` : the line scanner is in code, after a text that neither a slash nor a carriage return ends;
* `EndsInCode.exists_cells` : the text after such a text is scanned as if it stood alone;
* `scanRest_blank` : line feeds and a blank leave what a block comment with as many line feeds leaves;
* `blockComment_reads_as_blank` : so the comment can be replaced by them, and what stands on its two sides is kept
  apart by one blank.
-/

namespace ThriftModules.Idl

set_option autoImplicit false

/-- The scanner is in code at the end of `t`: it comes to a blank there outside comments and literals. Neither a line
end nor a comment marker can begin with the last character of `t`. -/
structure EndsInCode (t : Text) : Prop where
  stands : StandsInCode (t ++ [' ']) [' ']
  slash : t.getLast? ≠ some '/'
  carriageReturn : t.getLast? ≠ some '\r'

/-! ## The text before -/

/-- A move that ends in code in front of a blank leaves the same in front of every text, unless its last character can
begin a longer move. -/
theorem leaves_next?_blank {state : LineState} {x : Text} (h : next? state (x ++ [' ']) = some (.code, [' ']))
    (hslash : x.getLast? ≠ some '/') (hreturn : x.getLast? ≠ some '\r') :
    ∃ done p, ∀ rest, Leaves state x .code rest done p := by
  have hfeed : ∀ r : Text, r.dropWhile (· != '\n') ≠ [' '] := by
    intro r hr
    have hd := List.head?_dropWhile_not (· != '\n') r
    simp [hr] at hd
  have hcancel : ∀ y : Text, y ++ [' '] = x ++ [' '] → x = y := fun y hy => (List.append_cancel_right hy).symm
  revert h
  generalize ht : x ++ [' '] = t
  fun_cases next? state t with
  | case1 => intro h; cases h
  | case2 r =>
    intro h
    obtain ⟨hs, rfl⟩ := Prod.mk.inj (Option.some.inj h)
    obtain rfl := hcancel ['\n'] ht.symm
    exact ⟨_, _, fun rest => hs ▸ leaves_newline state rest⟩
  | case3 r =>
    intro h
    obtain ⟨hs, rfl⟩ := Prod.mk.inj (Option.some.inj h)
    obtain rfl := hcancel ['\r', '\n'] ht.symm
    exact ⟨_, _, fun rest => hs ▸ leaves_return state rest⟩
  | case4 r =>
    rintro ⟨⟩
    obtain rfl := hcancel ['*', '/'] ht.symm
    exact absurd rfl hslash
  | case5 c r => rintro ⟨⟩
  | case6 r =>
    intro h
    exact absurd (Prod.mk.inj (Option.some.inj h)).2 (hfeed r)
  | case7 r =>
    intro h
    exact absurd (Prod.mk.inj (Option.some.inj h)).2 (hfeed r)
  | case8 r => rintro ⟨⟩
  | case9 c r hn hr hhash =>
    intro h
    obtain ⟨hs, rfl⟩ := Prod.mk.inj (Option.some.inj h)
    obtain rfl := hcancel [c] ht.symm
    refine ⟨_, _, fun rest => hs ▸ leaves_codeChar ⟨hn, ?_⟩ hhash ?_ ?_⟩
    · rintro - rfl
      exact absurd rfl hreturn
    all_goals
      rintro - rfl
      exact absurd rfl hslash
  | case10 quote c r => rintro ⟨⟩
  | case11 quote c r hn hr hescape =>
    intro h
    obtain ⟨hs, rfl⟩ := Prod.mk.inj (Option.some.inj h)
    obtain rfl := hcancel [c] ht.symm
    refine ⟨_, _, fun rest => hs ▸ leaves_literalChar ⟨hn, ?_⟩ fun d r' hc _ => hescape ' ' [] hc rfl⟩
    rintro - rfl
    exact absurd rfl hreturn

theorem moves_self {n : Nat} {state next : LineState} {t : Text} (h : moves n (state, t) = some (next, t)) :
    state = next := by
  cases n with
  | zero => exact (Prod.mk.inj (Option.some.inj h)).1
  | succ n =>
    obtain ⟨⟨mid, u⟩, hnext, hmoves⟩ := Option.bind_eq_some_iff.1 h
    obtain ⟨x, -, -, rfl, hx, -⟩ := leaves_next? hnext
    obtain ⟨y, hy⟩ := exists_of_moves hmoves
    have hlength : u.length = y.length + (x.length + u.length) := by simpa using congrArg List.length hy
    exact absurd (List.length_eq_zero_iff.1 (by omega)) hx

theorem exists_leaves_of_moves {n : Nat} {state : LineState} {t : Text}
    (h : moves n (state, t ++ [' ']) = some (.code, [' '])) (hslash : t.getLast? ≠ some '/')
    (hreturn : t.getLast? ≠ some '\r') : ∃ done p, ∀ rest, Leaves state t .code rest done p := by
  induction n generalizing state t with
  | zero =>
    obtain ⟨rfl, ht⟩ := Prod.mk.inj (Option.some.inj h)
    obtain rfl : t = [] := List.append_left_eq_self.1 ht
    exact ⟨[], [], leaves_nil _⟩
  | succ n ih =>
    obtain ⟨⟨mid, u⟩, hnext, hmoves⟩ := Option.bind_eq_some_iff.1 h
    obtain ⟨x, done, p, hx, -, hleaves⟩ := leaves_next? hnext
    obtain ⟨y, rfl⟩ := exists_of_moves hmoves
    rw [← List.append_assoc] at hx
    obtain rfl : t = x ++ y := List.append_cancel_right hx
    by_cases hy : y = []
    · subst hy
      obtain rfl : mid = .code := moves_self hmoves
      rw [List.append_nil] at hnext hslash hreturn ⊢
      exact leaves_next?_blank hnext hslash hreturn
    · -- what follows `x` starts with `y`, whatever follows `y`
      rw [List.getLast?_append_of_ne_nil _ hy] at hslash hreturn
      obtain ⟨done', p', hrec⟩ := ih hmoves hslash hreturn
      refine ⟨_, _, fun rest => (hleaves.of_head?_eq ?_).append (hrec rest)⟩
      rw [List.head?_append_of_ne_nil y hy, List.head?_append_of_ne_nil y hy]

/-- After a text that ends in code, a text is scanned as if it stood alone: its first line goes on with the cells that
are open there. -/
theorem EndsInCode.exists_cells {before : Text} (h : EndsInCode before) (path : Text) :
    ∃ done p, ∀ r, r ≠ [] → (Source.ofText path (before ++ r)).cells = done ++ push p (scanRest .code r) := by
  obtain ⟨n, hmoves⟩ := h.stands
  obtain ⟨done, p, hleaves⟩ := exists_leaves_of_moves hmoves h.slash h.carriageReturn
  refine ⟨done, p, fun r hr => ?_⟩
  rw [Source.ofText, scanLines_lines false (by simp [hr])]
  exact hleaves r r hr rfl

/-! ## The blank -/

theorem scanRest_blank (k : Nat) (after : Text) :
    scanRest .code (List.replicate k '\n' ++ ' ' :: after) =
      List.replicate k [] ++ push [.plain ' '] (scanRest .code after) := by
  induction k with
  | zero =>
    refine scanRest_append (x := [' ']) (by simp) ⟨by decide, by simp⟩ fun l _ => ?_
    simp [scanLine, ScannedLine.cons, isLiteralQuote]
  | succ k ih =>
    rw [List.replicate_succ, List.cons_append, scanRest_newline .code (by simp)]
    exact congrArg ([] :: ·) ih

theorem scanRest_blockComment_eq_blank {body : Text} (h : Text.contains body "*/".toList = false) (after : Text) :
    scanRest .code (CommentStyle.block.text body ++ after) =
      scanRest .code (List.replicate (body.count '\n') '\n' ++ ' ' :: after) := by
  rw [scanRest_blockComment h, scanRest_blank]

/-- A block comment in code reads as the line feeds of its body and one blank, in both views. The views have a line for
each line of the text, and what stands before the comment and after it is scanned as without it: the one goes on with
the other only after the blank. -/
theorem blockComment_reads_as_blank (path before body after : Text) (h : EndsInCode before)
    (hbody : Text.contains body "*/".toList = false) :
    let commented := Source.ofText path (before ++ (CommentStyle.block.text body ++ after))
    let blanked := Source.ofText path (before ++ (List.replicate (body.count '\n') '\n' ++ ' ' :: after))
    commented.codeLines = blanked.codeLines ∧ commented.bareLines = blanked.bareLines ∧
      ('\n' ∉ body →
        commented.codeLines = (Source.ofText path (before ++ ' ' :: after)).codeLines ∧
          commented.bareLines = (Source.ofText path (before ++ ' ' :: after)).bareLines) ∧
      commented.codeLines.length = (before ++ (CommentStyle.block.text body ++ after)).lines.length ∧
      commented.bareLines.length = (before ++ (CommentStyle.block.text body ++ after)).lines.length ∧
      ∃ done p, (∀ r, r ≠ [] → (Source.ofText path (before ++ r)).cells = done ++ push p (scanRest .code r)) ∧
        commented.cells =
          done ++ push p (List.replicate (body.count '\n') [] ++ push [.plain ' '] (scanRest .code after)) := by
  intro commented blanked
  obtain ⟨done, p, hcells⟩ := h.exists_cells path
  have hcommented := hcells (CommentStyle.block.text body ++ after) (by simp [CommentStyle.text_ne_nil])
  have hsource : commented.cells = blanked.cells := by
    rw [hcommented, hcells _ (by simp), scanRest_blockComment_eq_blank hbody]
  have hcode : commented.codeLines = blanked.codeLines := congrArg (List.map codeOf) hsource
  have hbare : commented.bareLines = blanked.bareLines := congrArg (List.map bareOf) hsource
  refine ⟨hcode, hbare, fun hfeed => ?_, Source.length_codeLines _ _, Source.length_bareLines _ _, done, p, hcells, ?_⟩
  · have hk : List.replicate (body.count '\n') '\n' = [] := by rw [List.count_eq_zero.2 hfeed, List.replicate_zero]
    have hone : blanked = Source.ofText path (before ++ ' ' :: after) := by
      show Source.ofText path _ = _
      rw [hk, List.nil_append]
    exact ⟨hcode.trans (congrArg Source.codeLines hone), hbare.trans (congrArg Source.bareLines hone)⟩
  · rw [hcommented, scanRest_blockComment hbody]

/-- Two line feeds in the comment, and a body that ends as the closing marker begins. -/
theorem blockComment_reads_as_blank_lines :
    let before := "service".toList
    let body := "\n one \n*".toList
    let commented := Source.ofText [] (before ++ (CommentStyle.block.text body ++ "Geometry {}".toList))
    commented.bareLines = ["service".toList, [], " Geometry {}".toList] ∧
      commented.codeLines = (Source.ofText [] "service\n\n Geometry {}".toList).codeLines := by
  have hbefore : EndsInCode "service".toList := ⟨⟨7, by decide +kernel⟩, by decide, by decide⟩
  have h := blockComment_reads_as_blank [] _ "\n one \n*".toList "Geometry {}".toList hbefore (by decide)
  exact ⟨h.2.1.trans (by decide +kernel), h.1⟩

end ThriftModules.Idl
