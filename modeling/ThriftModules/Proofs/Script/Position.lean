import ThriftModules.Proofs.Script.Lexeme

/-!
# Places in a script

* `stateAfter` : where the marker stands at the end of a script;
* `marksFrom_append_of_stateAfter` : outside literals and block comments, what follows is marked from where the marker
  stands, unless it makes a comment with a slash at the end;
* `Scanner.HasRead` : a scan that has read a text, kept by every step (`HasRead.step`);
* `Scanner.moved`, `Scanner.run_moved` : a scan that starts further behind reads the same statements further behind.
-/

namespace ThriftModules.Script

set_option autoImplicit false

/-! ## The marker -/

/-- Where the marker stands behind a script that is entered in the given state. -/
def stateAfter : MarkState → Text → MarkState
  | .code, '/' :: '/' :: r => stateAfter .lineComment r
  | .code, '/' :: '*' :: r => stateAfter .blockComment r
  | .code, c :: r => if Text.isQuote c then stateAfter (.literal c) r else stateAfter .code r
  | .lineComment, c :: r => if c = '\n' then stateAfter .code r else stateAfter .lineComment r
  | .blockComment, '*' :: '/' :: r => stateAfter .code r
  | .blockComment, _ :: r => stateAfter .blockComment r
  | .literal quote, '\\' :: _ :: r => stateAfter (.literal quote) r
  | .literal quote, c :: r =>
    if c = quote then stateAfter .code r
    else if c = '\n' ∧ quote ≠ Text.backtick then stateAfter .code r
    else stateAfter (.literal quote) r
  | state, [] => state

/-- Text that may stand behind a script where the marker is outside literals and block comments: it makes no comment
with a slash at the end of the script. -/
def StaysApart (t u : Text) : Prop := t.getLast? = some '/' → opensComment u = false

theorem StaysApart.tail {c : Char} {t u : Text} (h : StaysApart (c :: t) u) : StaysApart t u := by
  cases t with
  | nil => exact fun e => by cases e
  | cons d t => exact fun e => h (List.getLast?_cons_cons.trans e)

theorem StaysApart.opensComment_append {c : Char} {r u : Text} (h : StaysApart (c :: r) u)
    (hline : ∀ r', c = '/' → r ≠ '/' :: r') (hblock : ∀ r', c = '/' → r ≠ '*' :: r') :
    c = '/' → opensComment r = false ∧ opensComment (r ++ u) = false := by
  rintro rfl
  cases r with
  | nil => exact ⟨rfl, h rfl⟩
  | cons d r =>
    have hd : d ≠ '/' ∧ d ≠ '*' := ⟨fun e => hline r rfl (by rw [e]), fun e => hblock r rfl (by rw [e])⟩
    simp [opensComment, hd]

/-- Outside literals and block comments, what follows is marked from where the marker stands. -/
theorem marksFrom_append_of_stateAfter {state : MarkState} {t u : Text} (hstate : state ≠ .literal '\\')
    (h : stateAfter state t = .code ∨ stateAfter state t = .lineComment) (hu : StaysApart t u) :
    marksFrom state (t ++ u) = marksFrom state t ++ marksFrom (stateAfter state t) u := by
  fun_induction stateAfter state t with
  | case1 r ih => simp [marksFrom, ih (by simp) h hu.tail.tail]
  | case2 r ih => simp [marksFrom, ih (by simp) h hu.tail.tail]
  | case3 c r hline hblock hq ih =>
    have hopens := hu.opensComment_append hline hblock
    have hquote : MarkState.literal c ≠ .literal '\\' := by
      rintro ⟨⟩
      exact absurd hq (by decide)
    rw [List.cons_append, marksFrom_code fun hc => (hopens hc).2, marksFrom_code fun hc => (hopens hc).1, if_pos hq,
      if_pos hq, ih hquote h hu.tail]
    rfl
  | case4 c r hline hblock hq ih =>
    have hopens := hu.opensComment_append hline hblock
    rw [List.cons_append, marksFrom_code fun hc => (hopens hc).2, marksFrom_code fun hc => (hopens hc).1, if_neg hq,
      if_neg hq, ih (by simp) h hu.tail]
    rfl
  | case5 r ih => simp [marksFrom, ih (by simp) h hu.tail]
  | case6 c r hc ih => simp [marksFrom, hc, ih (by simp) h hu.tail]
  | case7 r ih => simp [marksFrom, ih (by simp) h hu.tail.tail]
  | case8 c r hclose ih =>
    -- a star here would be the last character, and the comment would be open
    have hclose' : c = '*' → ∀ r', r ++ u ≠ '/' :: r' := by
      intro hc r' hr
      cases r with
      | nil => exact h.elim (fun e => by cases e) (fun e => by cases e)
      | cons d r => exact hclose r hc (by rw [(List.cons.inj hr).1])
    rw [List.cons_append, marksFrom_blockComment_cons hclose', marksFrom_blockComment_cons fun hc r' => hclose r' hc,
      ih (by simp) h hu.tail]
    rfl
  | case9 quote c r ih => simp [marksFrom, ih hstate h hu.tail.tail]
  | case10 c r hescape ih =>
    have hc : c ≠ '\\' := fun e => hstate (by rw [e])
    rw [List.cons_append, marksFrom_literal_cons hc, marksFrom_literal_cons hc, if_pos rfl, if_pos rfl,
      ih (by simp) h hu.tail]
    rfl
  | case11 quote c r hescape hne hline ih =>
    have hc : c ≠ '\\' := by
      rw [hline.1]
      decide
    rw [List.cons_append, marksFrom_literal_cons hc, marksFrom_literal_cons hc, if_neg hne, if_neg hne, if_pos hline,
      if_pos hline, ih (by simp) h hu.tail]
    rfl
  | case12 quote c r hescape hne hline ih =>
    -- a backslash here would be the last character, and the literal would be open
    have hc : c ≠ '\\' := by
      rintro rfl
      cases r with
      | nil => exact h.elim (fun e => by cases e) (fun e => by cases e)
      | cons d r => exact hescape d r rfl rfl
    rw [List.cons_append, marksFrom_literal_cons hc, marksFrom_literal_cons hc, if_neg hne, if_neg hne, if_neg hline,
      if_neg hline, ih hstate h hu.tail]
    rfl
  | case13 state => simp [marksFrom]

/-! ## What a scan has read -/

namespace Scanner

/-- A scan that has read a text: it stands behind it, the open statement is where the text ends, and brackets are open
in a statement only. -/
structure HasRead (s : Scanner) (front : Text) : Prop where
  offset : s.offset = Text.byteLength front
  current : ∀ o ∈ s.current, ∃ a, front = a ++ o.read.reverse ∧ Text.byteLength a = o.start
  closed : s.current = none → s.depth = 0

theorem hasRead_start : start.HasRead [] := ⟨rfl, nofun, fun _ => rfl⟩

section
variable {s : Scanner} {front : Text} (h : s.HasRead front)
include h

theorem HasRead.started : s.started.HasRead front := by
  refine ⟨h.offset, ?_, nofun⟩
  rintro o ⟨⟩
  cases hs : s.current with
  | none => exact ⟨front, (List.append_nil _).symm, h.offset.symm⟩
  | some o => exact h.current o hs

theorem HasRead.passed (t : Text) : (s.passed t).HasRead (front ++ t) := by
  refine ⟨by rw [byteLength_append, ← h.offset]; rfl, fun o ho => ?_, fun hn => h.closed (Option.map_eq_none_iff.1 hn)⟩
  obtain ⟨p, hp, rfl⟩ := Option.map_eq_some_iff.1 ho
  obtain ⟨a, hfront, ha⟩ := h.current p hp
  exact ⟨a, by rw [hfront]; simp, ha⟩

/-- The open statement reaches up to the end of what has been read. -/
theorem HasRead.stop_pending : ∀ sp ∈ s.pending, sp.stop = Text.byteLength front := by
  intro sp hsp
  obtain ⟨o, ho, rfl⟩ := Option.map_eq_some_iff.1 (Option.mem_toList.1 hsp)
  obtain ⟨a, rfl, ha⟩ := h.current o ho
  rw [byteLength_append, ha]
  rfl

/-- After one more character, that has been read as well, and the completed statements end there at most. -/
theorem HasRead.step (m : Mark) (rest : List Mark) :
    (s.step m rest).2.HasRead (front ++ [m.char]) ∧
      ∀ sp ∈ (s.step m rest).1, sp.stop ≤ Text.byteLength (front ++ [m.char]) := by
  obtain ⟨c, role⟩ := m
  have hpassed := h.passed [c]
  have hextended : ∀ d, HasRead ⟨s.offset + c.utf8Size, d, some (s.extended c)⟩ (front ++ [c]) := by
    intro d
    rw [some_extended]
    exact ⟨hpassed.offset, (h.started.passed [c]).current, nofun⟩
  have hcontinued : ∀ d, d ≤ s.depth → HasRead ⟨s.offset + c.utf8Size, d, s.continued c⟩ (front ++ [c]) :=
    fun d hd => ⟨hpassed.offset, hpassed.current, fun hn => Nat.eq_zero_of_le_zero (hpassed.closed hn ▸ hd)⟩
  have hnone : HasRead ⟨s.offset + c.utf8Size, 0, none⟩ (front ++ [c]) := ⟨hpassed.offset, nofun, fun _ => rfl⟩
  cases role with
  | comment => exact ⟨hcontinued _ (Nat.le_refl _), List.forall_mem_nil _⟩
  | literal => exact ⟨hextended _, List.forall_mem_nil _⟩
  | code =>
    simp only [Scanner.step, stepCode]
    split
    · exact ⟨hextended _, List.forall_mem_nil _⟩
    split
    · split
      · exact ⟨hnone, fun sp hsp => Nat.le_of_eq (hpassed.stop_pending sp hsp)⟩
      · exact ⟨hcontinued _ (Nat.sub_le _ _), List.forall_mem_nil _⟩
    split
    · refine ⟨hnone, fun sp hsp => ?_⟩
      rw [h.stop_pending sp hsp, byteLength_append]
      exact Nat.le_add_right _ _
    split
    · exact ⟨hcontinued _ (Nat.le_refl _), List.forall_mem_nil _⟩
    · exact ⟨hextended _, List.forall_mem_nil _⟩

end

end Scanner

/-! ## The same scan further behind -/

def Span.moved (k : Nat) (s : Span) : Span := ⟨s.start + k, s.text⟩

def OpenStatement.moved (k : Nat) (o : OpenStatement) : OpenStatement := ⟨o.start + k, o.read⟩

namespace Scanner

def moved (k : Nat) (s : Scanner) : Scanner := ⟨s.offset + k, s.depth, s.current.map (OpenStatement.moved k)⟩

variable (s : Scanner) (k : Nat)

theorem extended_moved (c : Char) : (s.moved k).extended c = (s.extended c).moved k := by
  cases s with
  | mk offset depth current => cases current <;> rfl

theorem continued_moved (c : Char) : (s.moved k).continued c = (s.continued c).map (OpenStatement.moved k) := by
  cases s with
  | mk offset depth current => cases current <;> rfl

theorem toList_span_moved (o : Option OpenStatement) :
    ((o.map (OpenStatement.moved k)).map OpenStatement.span).toList =
      (o.map OpenStatement.span).toList.map (Span.moved k) := by
  cases o <;> rfl

theorem step_moved (m : Mark) (rest : List Mark) :
    (s.moved k).step m rest = ((s.step m rest).1.map (Span.moved k), (s.step m rest).2.moved k) := by
  obtain ⟨c, role⟩ := m
  have hoffset : (s.moved k).offset + c.utf8Size = s.offset + c.utf8Size + k := Nat.add_right_comm _ _ _
  have hdepth : (s.moved k).depth = s.depth := rfl
  have hpending : (s.moved k).pending = s.pending.map (Span.moved k) := toList_span_moved k s.current
  cases role with
  | comment =>
    simp only [step, hoffset, hdepth, continued_moved]
    rfl
  | literal =>
    simp only [step, hoffset, hdepth, extended_moved]
    rfl
  | code =>
    simp only [step, stepCode, hoffset, hdepth, hpending, extended_moved, continued_moved, toList_span_moved]
    split
    · rfl
    split
    · split <;> rfl
    split
    · rfl
    split <;> rfl

/-- A scan that starts further behind reads the same statements further behind. -/
theorem run_moved (ms : List Mark) : (s.moved k).run ms = (s.run ms).map (Span.moved k) := by
  induction ms generalizing s with
  | nil => exact toList_span_moved k s.current
  | cons m ms ih => rw [run, run, step_moved, ih, List.map_append]

theorem run_none_add (n k : Nat) (ms : List Mark) :
    (⟨n + k, 0, none⟩ : Scanner).run ms = ((⟨n, 0, none⟩ : Scanner).run ms).map (Span.moved k) :=
  run_moved ⟨n, 0, none⟩ k ms

end Scanner

end ThriftModules.Script
