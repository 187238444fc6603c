import ThriftModules.Idl.Source
import ThriftModules.Proofs.Idl.Dotted
import ThriftModules.Proofs.Text.Keywords

/-!
# Namespace lines put into a source

* `NamespaceLine` : the keyword `namespace`, a scope and a dotted name, with blanks around them;
* `Inserts` : lines with such lines put between them, and those of them that stand outside block comments;
* `mem_flatMap_bareLines` : what is read off the bare lines with them is what was read before, and what is read off
  these.
-/

namespace ThriftModules.Idl

set_option autoImplicit false

/-- A line that declares a namespace for a scope, which is a dotted name or a star for all of them. -/
structure NamespaceLine where
  indent : Text
  /-- The blanks in front of the scope. -/
  gap : Text
  scope : Text
  /-- The blanks in front of the name. -/
  gap' : Text
  name : Namespace
  /-- The blanks at the end of the line. -/
  rest : Text
  indented : Text.IsBlanks indent
  apart : Text.IsGap gap
  apart' : Text.IsGap gap'
  isRest : Text.IsBlanks rest
  isScope : scope = ['*'] ∨ IsDotted scope
  isDotted : IsDotted name

namespace NamespaceLine

def text (l : NamespaceLine) : Text :=
  l.indent ++ ("namespace".toList ++ (l.gap ++ (l.scope ++ (l.gap' ++ (l.name ++ l.rest)))))

/-- Every character of the line is blank, a word character, a dot or a star. -/
theorem mem_text {l : NamespaceLine} {c : Char} (h : c ∈ l.text) :
    Text.isBlank c = true ∨ isNamespaceChar c = true ∨ c = '*' := by
  have hkeyword : ∀ d ∈ "namespace".toList, isNamespaceChar d = true := by decide
  simp only [text, List.mem_append] at h
  rcases h with h | h | h | h | h | h | h
  · exact .inl (l.indented c h)
  · exact .inr (.inl (hkeyword c h))
  · exact .inl (l.apart.2 c h)
  · rcases l.isScope with hscope | hscope
    · rw [hscope] at h
      exact .inr (.inr (List.mem_singleton.1 h))
    · exact .inr (.inl (hscope.isNamespaceChar c h))
  · exact .inl (l.apart'.2 c h)
  · exact .inr (.inl (l.isDotted.isNamespaceChar c h))
  · exact .inl (l.isRest c h)

theorem notMem_text {l : NamespaceLine} {c : Char} (hblank : Text.isBlank c = false) (hname : isNamespaceChar c = false)
    (hstar : c ≠ '*') : c ∉ l.text := by
  intro h
  rcases mem_text h with h | h | h
  · rw [hblank] at h
    cases h
  · rw [hname] at h
    cases h
  · exact hstar h

end NamespaceLine

/-! ## The scan of such lines -/

theorem scanLine_code_plain {t : Text} (hhash : '#' ∉ t) (hslash : '/' ∉ t)
    (hquote : ∀ c ∈ t, isLiteralQuote c = false) : scanLine .code t = ⟨t.map .plain, false⟩ := by
  induction t with
  | nil => rfl
  | cons c t ih =>
    have hrest : scanLine .code t = ⟨t.map .plain, false⟩ :=
      ih (fun h => hhash (List.mem_cons_of_mem c h)) (fun h => hslash (List.mem_cons_of_mem c h))
        fun d hd => hquote d (List.mem_cons_of_mem c hd)
    have hc : isLiteralQuote c = false := hquote c List.mem_cons_self
    have hne : c ≠ '#' ∧ c ≠ '/' :=
      ⟨fun e => hhash (e ▸ List.mem_cons_self), fun e => hslash (e ▸ List.mem_cons_self)⟩
    rw [scanLine_code_cons hc hne.1 fun e => absurd e hne.2, hrest]
    rfl

theorem scanLine_comment_open {t : Text} (hslash : '/' ∉ t) : scanLine .comment t = ⟨[], true⟩ := by
  induction t with
  | nil => rfl
  | cons c t ih =>
    have hnext : t.head? ≠ some '/' := fun h => hslash (List.mem_cons_of_mem c (List.mem_of_head? h))
    rw [scanLine_comment_cons fun _ => hnext, ih fun h => hslash (List.mem_cons_of_mem c h)]

theorem scanLine_code_text (l : NamespaceLine) : scanLine .code l.text = ⟨l.text.map .plain, false⟩ := by
  refine scanLine_code_plain (l.notMem_text (by decide) (by decide) (by decide))
    (l.notMem_text (by decide) (by decide) (by decide)) fun c hc => ?_
  rw [← Bool.not_eq_true, isLiteralQuote, Bool.or_eq_true, beq_iff_eq, beq_iff_eq]
  rintro (rfl | rfl)
  · exact l.notMem_text (by decide) (by decide) (by decide) hc
  · exact l.notMem_text (by decide) (by decide) (by decide) hc

theorem scanLine_comment_text (l : NamespaceLine) : scanLine .comment l.text = ⟨[], true⟩ :=
  scanLine_comment_open (l.notMem_text (by decide) (by decide) (by decide))

/-! ## Insertions -/

/-- The second lines are the first ones with namespace lines put between them, of which the last list holds those that
stand outside block comments; the flag says whether a block comment is open before the first line. -/
inductive Inserts : Bool → List Text → List Text → List NamespaceLine → Prop where
  | nil {inComment : Bool} : Inserts inComment [] [] []
  | keep {inComment : Bool} {line : Text} {lines lines' : List Text} {inserted : List NamespaceLine}
      (rest : Inserts (scanLine (entryState inComment) line).inComment lines lines' inserted) :
      Inserts inComment (line :: lines) (line :: lines') inserted
  | insert {l : NamespaceLine} {lines lines' : List Text} {inserted : List NamespaceLine}
      (rest : Inserts false lines lines' inserted) : Inserts false lines (l.text :: lines') (l :: inserted)
  | hide {l : NamespaceLine} {lines lines' : List Text} {inserted : List NamespaceLine}
      (rest : Inserts true lines lines' inserted) : Inserts true lines (l.text :: lines') inserted

section
variable {α : Type} {f : Text → List α} {x : α}

theorem Inserts.mem_flatMap {inComment : Bool} {lines lines' : List Text} {inserted : List NamespaceLine}
    (h : Inserts inComment lines lines' inserted) (hnil : f [] = []) :
    x ∈ ((scanLines inComment lines').map bareOf).flatMap f ↔
      x ∈ ((scanLines inComment lines).map bareOf).flatMap f ∨ ∃ l ∈ inserted, x ∈ f l.text := by
  induction h with
  | nil => simp [scanLines]
  | keep rest ih =>
    simp only [scanLines, List.map_cons, List.flatMap_cons, List.mem_append, ih, or_assoc]
  | @insert l lines lines' inserted rest ih =>
    simp only [scanLines, entryState, Bool.false_eq_true, if_false, scanLine_code_text, List.map_cons, bareOf_plain,
      List.flatMap_cons, List.mem_append, ih, List.exists_mem_cons_iff]
    exact or_left_comm
  | @hide l lines lines' inserted rest ih =>
    have hline : f (bareOf []) = [] := hnil
    simp only [scanLines, entryState, if_true, scanLine_comment_text, List.map_cons, hline, List.flatMap_cons,
      List.nil_append, ih]

/-- What is read off the bare lines of a source with namespace lines in it. -/
theorem mem_flatMap_bareLines {path text text' : Text} {inserted : List NamespaceLine}
    (h : Inserts false text.lines text'.lines inserted) (hnil : f [] = []) :
    x ∈ (Source.ofText path text').bareLines.flatMap f ↔
      x ∈ (Source.ofText path text).bareLines.flatMap f ∨ ∃ l ∈ inserted, x ∈ f l.text :=
  h.mem_flatMap hnil

end

end ThriftModules.Idl
