import ThriftModules.Text.Basic

/-!
# Where a line ends

* `lines_append` : a text without line feed in front of another belongs to its first line;
* `lines_append_newline` : a text in front of a line feed is a line, less the carriage return at its end;
* `head?_line` : the first line of a text starts as the text does, unless it is empty;
* `lines_unlines` : the lines of a text of lines are these lines.
-/

namespace ThriftModules.Text

set_option autoImplicit false

/-- Whether `rest` continues the line that `t` stands in: no line feed in `t`, and no line end made by both. -/
def IsInLine (t rest : Text) : Prop := '\n' ∉ t ∧ ¬(t.getLast? = some '\r' ∧ rest.head? = some '\n')

/-- `t` without the carriage return that it ends with. -/
def dropReturn (t : Text) : Text := if t.getLast? = some '\r' then t.dropLast else t

theorem lines_newline (r : Text) : lines ('\n' :: r) = [] :: lines r := by
  rw [lines]

theorem lines_return (r : Text) : lines ('\r' :: '\n' :: r) = [] :: lines r := by
  rw [lines]

theorem lines_cons {c : Char} {r : Text} (h : IsInLine [c] r) :
    lines (c :: r) =
      match lines r with
      | [] => [[c]]
      | l :: ls => (c :: l) :: ls := by
  obtain ⟨hn, hr⟩ := h
  have hfeed : c = '\n' → False := by
    rintro rfl
    exact hn List.mem_cons_self
  have hreturn : ∀ r', c = '\r' → r = '\n' :: r' → False := by
    rintro r' rfl rfl
    exact hr ⟨rfl, rfl⟩
  exact lines.eq_4 c r hfeed hreturn

theorem IsInLine.tail {c d : Char} {t rest : Text} (h : IsInLine (c :: d :: t) rest) : IsInLine (d :: t) rest :=
  ⟨fun hd => h.1 (List.mem_cons_of_mem c hd), by simpa using h.2⟩

theorem IsInLine.head {c d : Char} {t rest : Text} (h : IsInLine (c :: d :: t) rest) :
    IsInLine [c] (d :: t ++ rest) := by
  have hd : d ≠ '\n' := fun e => h.1 (by simp [e])
  refine ⟨fun hc => h.1 ?_, fun hr => hd (by simpa using hr.2)⟩
  rw [List.mem_singleton.1 hc]
  exact List.mem_cons_self

theorem lines_append {t rest : Text} (hne : t ≠ []) (h : IsInLine t rest) :
    lines (t ++ rest) =
      match lines rest with
      | [] => [t]
      | l :: ls => (t ++ l) :: ls := by
  induction t with
  | nil => exact absurd rfl hne
  | cons c t ih =>
    cases t with
    | nil => exact lines_cons h
    | cons d t =>
      rw [List.cons_append, lines_cons h.head, ih (by simp) h.tail]
      cases lines rest <;> rfl

theorem dropReturn_append {t s : Text} (hs : s ≠ []) : dropReturn (t ++ s) = t ++ dropReturn s := by
  have hlast : (t ++ s).getLast? = s.getLast? := by
    rw [List.getLast?_append, List.getLast?_eq_some_getLast hs]
    rfl
  rw [dropReturn, dropReturn, hlast]
  split
  · exact List.dropLast_append_of_ne_nil hs
  · rfl

theorem lines_append_newline {t : Text} (h : '\n' ∉ t) (r : Text) :
    lines (t ++ '\n' :: r) = dropReturn t :: lines r := by
  by_cases hr : t.getLast? = some '\r'
  · obtain ⟨s, rfl⟩ := List.getLast?_eq_some_iff.1 hr
    have hdrop : dropReturn (s ++ ['\r']) = s := by
      rw [dropReturn, if_pos hr, List.dropLast_concat]
    rw [hdrop, List.append_assoc, List.singleton_append]
    rcases List.eq_nil_or_concat s with rfl | ⟨_, _, rfl⟩
    · exact lines_return r
    · rw [lines_append (by simp) ⟨fun hs => h (List.mem_append_left _ hs), by simp⟩, lines_return]
      simp
  · rw [dropReturn, if_neg hr]
    by_cases hne : t = []
    · subst hne
      exact lines_newline r
    · rw [lines_append hne ⟨h, fun hc => hr hc.1⟩, lines_newline]
      simp

theorem lines_ne_nil {t : Text} (h : t ≠ []) : lines t ≠ [] := by
  fun_cases lines t with
  | case1 => exact absurd rfl h
  | case2 => simp
  | case3 => simp
  | case4 => simp
  | case5 => simp

/-- The first line of a text starts as the text does, unless it is empty. -/
theorem head?_line {t l : Text} {ls : List Text} (h : lines t = l :: ls) :
    l = [] ∨ l.head? = t.head? ∧ l.head? ≠ some '\n' := by
  revert h
  fun_cases lines t with
  | case1 => intro h; cases h
  | case2 => intro h; cases h; exact Or.inl rfl
  | case3 => intro h; cases h; exact Or.inl rfl
  | case4 c r hn => intro h; cases h; exact Or.inr ⟨rfl, by simpa using hn⟩
  | case5 c r hn => intro h; cases h; exact Or.inr ⟨rfl, by simpa using hn⟩

theorem newline_notMem_of_mem_lines {t l : Text} (h : l ∈ lines t) : '\n' ∉ l := by
  fun_induction lines t generalizing l with
  | case1 => cases h
  | case2 r ih =>
    rcases List.mem_cons.1 h with rfl | h
    · exact List.not_mem_nil
    · exact ih h
  | case3 r ih =>
    rcases List.mem_cons.1 h with rfl | h
    · exact List.not_mem_nil
    · exact ih h
  | case4 c r hfeed hreturn hr ih =>
    rw [List.mem_singleton.1 h, List.mem_singleton]
    exact fun e => hfeed e.symm
  | case5 c r hfeed hreturn l' ls hr ih =>
    simp only [hr] at ih
    rcases List.mem_cons.1 h with rfl | h
    · exact fun hc => (List.mem_cons.1 hc).elim (fun e => hfeed e.symm) (ih List.mem_cons_self)
    · exact ih (List.mem_cons_of_mem l' h)

/-- A text that is one line when it is closed by a line feed. -/
def ClosesAsLine (t : Text) : Prop := '\n' ∉ t ∧ t.getLast? ≠ some '\r'

theorem lines_unlines {ls : List Text} (h : ∀ l ∈ ls, ClosesAsLine l) : lines (unlines ls) = ls := by
  induction ls with
  | nil => rfl
  | cons l ls ih =>
    obtain ⟨hfeed, hreturn⟩ := h l List.mem_cons_self
    have hsplit : unlines (l :: ls) = l ++ '\n' :: unlines ls := by simp [unlines]
    rw [hsplit, lines_append_newline hfeed, dropReturn, if_neg hreturn, ih fun m hm => h m (List.mem_cons_of_mem l hm)]

end ThriftModules.Text
