import Mathlib.Data.List.Basic
import ThriftModules.Proofs.Script.Within

/-!
# Texts cut from a balanced script

* `isQuiet` : characters that stand for themselves wherever they are code;
* `exists_cut`, `exists_cut_of_tail` : a cut through a text goes between two of its pieces or through one of them, and
  in front of blanks and braces it goes through no piece but a comment that ends with its line;
* `IsLine` : texts that are balanced when a line feed follows them (`IsLine.of_append`, `IsLine.closed`,
  `isBalanced_unlines`).
-/

namespace ThriftModules.Script

set_option autoImplicit false

/-! ## Quiet characters -/

/-- Characters that neither open a literal or a comment nor count for where a statement ends. -/
def isQuiet (c : Char) : Bool :=
  !Text.isQuote c && c != '/' && !isOpening c && !isClosing c && c != ';'

theorem isQuiet_iff {c : Char} :
    isQuiet c = true ↔ (Text.isQuote c = false ∧ c ≠ '/') ∧ isOpening c = false ∧ isClosing c = false ∧ c ≠ ';' := by
  simp only [isQuiet, Bool.and_eq_true, Bool.not_eq_true', bne_iff_ne, and_assoc]

theorem isQuiet_of_isBlank {c : Char} (h : Text.isBlank c = true) : isQuiet c = true := by
  have hne : ∀ d, Text.isBlank d = false → c ≠ d := by
    rintro d hd rfl
    rw [h] at hd
    cases hd
  simp only [isQuiet_iff, Text.isQuote, isOpening, isClosing, Bool.or_eq_false_iff, beq_eq_false_iff_ne]
  refine ⟨⟨⟨⟨?_, ?_⟩, ?_⟩, ?_⟩, ⟨⟨?_, ?_⟩, ?_⟩, ⟨⟨?_, ?_⟩, ?_⟩, ?_⟩ <;> exact hne _ (by decide)

theorem isQuiet_of_isTargetChar {c : Char} (h : Assignment.isTargetChar c = true) : isQuiet c = true := by
  obtain ⟨hplain, hquote⟩ := isPlain_of_isTargetChar h
  simp only [isPlain, Bool.and_eq_true, Bool.not_eq_true', bne_iff_ne] at hplain
  exact isQuiet_iff.2 ⟨hquote, hplain.1.1.1, hplain.1.1.2, hplain.1.2⟩

section
variable {t : Text}

theorem reads_codes_of_isQuiet (h : ∀ c ∈ t, isQuiet c = true) (rest : Text) : reads (codes t) rest = true :=
  reads_codes (fun c hc => (isQuiet_iff.1 (h c hc)).1) rest

theorem depthInside?_codes_of_isQuiet (h : ∀ c ∈ t, isQuiet c = true) (d : Nat) : depthInside? d (codes t) = some d :=
  depthInside?_codes (fun c hc => (isQuiet_iff.1 (h c hc)).2) d

theorem depthAfter?_codes_of_isQuiet (h : ∀ c ∈ t, isQuiet c = true) (d : Nat) : depthAfter? d (codes t) = some d :=
  depthAfter?_of_within (within_of_depthInside? (depthInside?_codes_of_isQuiet h d) [])

end

theorem IsBalanced.quiet_append {a t : Text} (ha : ∀ c ∈ a, isQuiet c = true) (h : IsBalanced t) :
    IsBalanced (a ++ t) := by
  obtain ⟨ps, rfl, hr, hd⟩ := h
  refine ⟨codes a ++ ps, by rw [texts_append, texts_codes], reads_append.2 ⟨reads_codes_of_isQuiet ha _, hr⟩, ?_⟩
  exact depthAfter?_append.2 ⟨0, depthAfter?_codes_of_isQuiet ha 0, hd⟩

/-! ## Cuts -/

/-- Pieces in front of texts that agree on whether they make a comment with a slash. -/
theorem reads_congr {ps : List Piece} {r r' : Text} (h : opensComment r = opensComment r') :
    reads ps r = reads ps r' := by
  induction ps with
  | nil => rfl
  | cons p ps ih =>
    have hopens : opensComment (texts ps ++ r) = opensComment (texts ps ++ r') := by
      rw [opensComment_append, opensComment_append, h]
    rw [reads, reads, ih, hopens]

theorem reads_slash (ps : List Piece) (r : Text) : reads ps ('/' :: r) = reads ps ['/'] := reads_congr rfl

theorem exists_codes_append {ps : List Piece} {a b : Text} (h : texts ps = a ++ b) (hr : reads ps [] = true)
    (ha : ∀ c ∈ a, Text.isQuote c = false ∧ c ≠ '/') : ∃ qs, ps = codes a ++ qs ∧ texts qs = b := by
  induction a generalizing ps with
  | nil => exact ⟨ps, rfl, h⟩
  | cons c a ih =>
    obtain - | ⟨p, ps⟩ := ps
    · cases h
    obtain ⟨hclosed, -, hps⟩ := reads_cons.1 hr
    obtain ⟨hquote, hslash⟩ := ha c List.mem_cons_self
    have hcode : p = .code c := by
      cases p with
      | code d => rw [(List.cons.inj h).1]
      | literal quote body =>
        rw [Piece.isClosed, (List.cons.inj h).1, hquote] at hclosed
        cases hclosed
      | lineComment body => exact absurd (List.cons.inj h).1.symm hslash
      | blockComment body => exact absurd (List.cons.inj h).1.symm hslash
    subst hcode
    obtain ⟨qs, rfl, hqs⟩ := ih (List.cons.inj h).2 hps fun d hd => ha d (List.mem_cons_of_mem c hd)
    exact ⟨qs, rfl, hqs⟩

theorem eq_codes {ps : List Piece} {t : Text} (h : texts ps = t) (hr : reads ps [] = true)
    (ht : ∀ c ∈ t, Text.isQuote c = false ∧ c ≠ '/') : ps = codes t := by
  obtain ⟨qs, rfl, hqs⟩ := exists_codes_append (b := []) (by rw [h, List.append_nil]) hr ht
  cases qs with
  | nil => rw [List.append_nil]
  | cons q qs => exact absurd (List.append_eq_nil_iff.1 hqs).1 q.text_ne_nil

/-- A cut through a text goes between two of its pieces or through one of them. -/
theorem exists_cut {ps : List Piece} {a b : Text} (h : texts ps = a ++ b) :
    (∃ us vs, ps = us ++ vs ∧ texts us = a ∧ texts vs = b) ∨
      ∃ us p vs x y, ps = us ++ p :: vs ∧ p.text = x ++ y ∧ x ≠ [] ∧ y ≠ [] ∧ a = texts us ++ x ∧
        b = y ++ texts vs := by
  induction ps generalizing a with
  | nil =>
    obtain ⟨rfl, rfl⟩ := List.append_eq_nil_iff.1 h.symm
    exact .inl ⟨[], [], rfl, rfl, rfl⟩
  | cons p ps ih =>
    rw [texts_cons, List.append_eq_append_iff] at h
    rcases h with ⟨a', rfl, h⟩ | ⟨y, hp, rfl⟩
    · rcases ih h with ⟨us, vs, rfl, rfl, rfl⟩ | ⟨us, q, vs, x, y, rfl, hq, hx, hy, rfl, rfl⟩
      · exact .inl ⟨p :: us, vs, rfl, rfl, rfl⟩
      · exact .inr ⟨p :: us, q, vs, x, y, rfl, hq, hx, hy, by rw [texts_cons, List.append_assoc], rfl⟩
    · by_cases ha : a = []
      · subst ha
        exact .inl ⟨[], p :: ps, rfl, rfl, by rw [texts_cons, hp]; rfl⟩
      by_cases hy : y = []
      · subst hy
        exact .inl ⟨[p], ps, rfl, by rw [texts_cons, hp, texts_nil, List.append_nil, List.append_nil], rfl⟩
      exact .inr ⟨[], p, ps, a, y, rfl, hp, ha, hy, rfl, rfl⟩

/-- Blanks and closing braces. -/
def isTail (c : Char) : Bool := Text.isBlank c || c == '}'

theorem not_isQuote_of_isTail {c : Char} (h : isTail c = true) : Text.isQuote c = false ∧ c ≠ '/' := by
  rcases Bool.or_eq_true_iff.1 h with h | h
  · exact (isQuiet_iff.1 (isQuiet_of_isBlank h)).1
  · rw [beq_iff_eq] at h
    subst h
    decide

/-- In front of blanks and braces a cut goes through no piece but a comment that ends with its line. -/
theorem exists_cut_of_tail {ps : List Piece} {a b : Text} (h : texts ps = a ++ b) (hr : reads ps [] = true)
    (hb : ∀ c ∈ b, isTail c = true) :
    (∃ us, ps = us ++ codes b ∧ texts us = a) ∨
      ∃ us x y r, ps = us ++ .lineComment (x ++ y) :: codes r ∧ a = texts us ++ '/' :: '/' :: x ∧
        b = y ++ '\n' :: r := by
  rcases exists_cut h with ⟨us, vs, rfl, rfl, hvs⟩ | ⟨us, p, vs, x, y, rfl, hp, hx, hy, rfl, rfl⟩
  · rw [eq_codes hvs (reads_append.1 hr).2 fun c hc => not_isQuote_of_isTail (hb c hc)]
    exact .inl ⟨us, rfl, rfl⟩
  · obtain ⟨-, hrest⟩ := reads_append.1 hr
    obtain ⟨hclosed, -, hvs⟩ := reads_cons.1 hrest
    have htail : ∀ c, p.text.getLast? = some c → isTail c = true := by
      intro c hc
      rw [hp, List.getLast?_append_of_ne_nil x hy] at hc
      exact hb c (List.mem_append_left _ (List.mem_of_getLast? hc))
    have hfirst : ∀ c, y.head? = some c → isTail c = true := fun c hc =>
      hb c (List.mem_append_left _ (List.mem_of_head? hc))
    cases p with
    | code c =>
      have hlen := congrArg List.length hp
      rw [Piece.text, List.length_singleton, List.length_append] at hlen
      have := List.length_pos_iff.2 hx
      have := List.length_pos_iff.2 hy
      omega
    | literal quote body =>
      have hquote := (not_isQuote_of_isTail (htail quote (List.getLast?_concat (l := quote :: body)))).1
      rw [Piece.isClosed, hquote] at hclosed
      cases hclosed
    | blockComment body =>
      have hslash : (Piece.blockComment body).text.getLast? = some '/' := by
        rw [Piece.text, ← List.cons_append, ← List.cons_append]
        exact List.getLast?_append_of_ne_nil _ (by decide)
      exact absurd (htail '/' hslash) (by decide)
    | lineComment body =>
      right
      obtain - | ⟨c, x⟩ := x
      · exact absurd rfl hx
      rw [Piece.text, List.cons_append, List.cons.injEq] at hp
      obtain ⟨rfl, hp⟩ := hp
      obtain - | ⟨d, x⟩ := x
      · -- the cut does not go between the two slashes
        rw [List.nil_append] at hp
        exact absurd (hfirst '/' (by rw [← hp]; rfl)) (by decide)
      rw [List.cons_append, List.cons.injEq] at hp
      obtain ⟨rfl, hp⟩ := hp
      have hlast : y = y.dropLast ++ ['\n'] := by
        have hnl : y.getLast? = some '\n' := by
          rw [← List.getLast?_append_of_ne_nil x hy, ← hp]
          exact List.getLast?_concat
        exact (List.dropLast_append_getLast? _ hnl).symm
      have hbody : body = x ++ y.dropLast := by
        rw [hlast, ← List.append_assoc] at hp
        exact List.append_cancel_right hp
      have hcodes := eq_codes rfl hvs fun c hc => not_isQuote_of_isTail (hb c (List.mem_append_right _ hc))
      refine ⟨us, x, y.dropLast, texts vs, by rw [← hcodes, hbody], rfl, ?_⟩
      calc y ++ texts vs = (y.dropLast ++ ['\n']) ++ texts vs := by rw [← hlast]
        _ = y.dropLast ++ '\n' :: texts vs := List.append_assoc _ _ _

/-! ## Lines -/

/-- Balanced when a line feed follows: literals and comments are closed, where the end of the text closes a comment that
ends with its line, and brackets balance. -/
def IsLine (t : Text) : Prop := IsBalanced (t ++ ['\n'])

section
variable {t : Text} {us : List Piece}

theorem isLine_of_isBalanced (h : IsBalanced t) : IsLine t := by
  obtain ⟨ps, rfl, hr, hd⟩ := h
  refine ⟨ps ++ codes ['\n'], by rw [texts_append, texts_codes], ?_, depthAfter?_append.2 ⟨0, hd, by decide⟩⟩
  exact reads_append.2 ⟨reads_of_reads_nil hr (by decide), by decide⟩

theorem isLine_of_comment {x : Text} (hr : reads us ['/'] = true) (hd : depthAfter? 0 us = some 0)
    (hx : x.any (· == '\n') = false) : IsLine (texts us ++ '/' :: '/' :: x) := by
  refine ⟨us ++ [.lineComment x], ?_, ?_, depthAfter?_append.2 ⟨0, hd, rfl⟩⟩
  · rw [texts_append, texts_cons, texts_nil, Piece.text, List.append_assoc, List.append_nil]
    rfl
  · refine reads_append.2 ⟨(reads_slash us _).trans hr, reads_cons.2 ⟨?_, ?_, rfl⟩⟩
    · rw [Piece.isClosed, hx]
      rfl
    · intro e
      cases e

end

theorem isLine_of_cut {ps : List Piece} {a b : Text} (h : texts ps = a ++ b) (hr : reads ps [] = true)
    (hd : depthAfter? 0 ps = some 0) (hb : ∀ c ∈ b, Text.isBlank c = true) : IsLine a := by
  have hquiet : ∀ c ∈ b, isQuiet c = true := fun c hc => isQuiet_of_isBlank (hb c hc)
  rcases exists_cut_of_tail h hr fun c hc => Bool.or_eq_true_iff.2 (.inl (hb c hc)) with
    ⟨us, rfl, rfl⟩ | ⟨us, x, y, r, rfl, rfl, rfl⟩
  · obtain ⟨e, hus, he⟩ := depthAfter?_append.1 hd
    rw [depthAfter?_codes_of_isQuiet hquiet] at he
    cases he
    exact isLine_of_isBalanced ⟨us, rfl, reads_nil_of_reads (reads_append.1 hr).1, hus⟩
  · obtain ⟨e, hus, he⟩ := depthAfter?_append.1 hd
    obtain ⟨f, hf, hr'⟩ := depthAfter?_cons.1 he
    cases hf
    rw [depthAfter?_codes_of_isQuiet fun c hc => hquiet c (List.mem_append_right y (List.mem_cons_of_mem _ hc))] at hr'
    cases hr'
    obtain ⟨hreads, hrest⟩ := reads_append.1 hr
    have hbody := (reads_cons.1 hrest).1
    rw [Piece.isClosed, Bool.not_eq_true', List.any_append, Bool.or_eq_false_iff] at hbody
    exact isLine_of_comment ((reads_slash us _).symm.trans hreads) hus hbody.1

namespace IsLine

section
variable {a t : Text}

theorem of_append (h : IsLine (a ++ t)) (ha : ∀ c ∈ a, isQuiet c = true) : IsLine t := by
  obtain ⟨ps, hps, hr, hd⟩ := h
  rw [List.append_assoc] at hps
  obtain ⟨qs, rfl, hqs⟩ := exists_codes_append hps hr fun c hc => (isQuiet_iff.1 (ha c hc)).1
  obtain ⟨e, he, hd⟩ := depthAfter?_append.1 hd
  rw [depthAfter?_codes_of_isQuiet ha] at he
  cases he
  exact ⟨qs, hqs, (reads_append.1 hr).2, hd⟩

theorem quiet_append (ha : ∀ c ∈ a, isQuiet c = true) (h : IsLine t) : IsLine (a ++ t) := by
  rw [IsLine, List.append_assoc]
  exact IsBalanced.quiet_append ha h

theorem closed (h : IsLine t) : IsLine (t ++ [';']) := by
  obtain ⟨ps, hps, hr, hd⟩ := h
  rcases exists_cut_of_tail hps hr (by decide) with ⟨us, rfl, rfl⟩ | ⟨us, x, y, r, rfl, rfl, hnl⟩
  · obtain ⟨e, hus, he⟩ := depthAfter?_append.1 hd
    cases he
    refine isLine_of_isBalanced ⟨us ++ codes [';'], by rw [texts_append, texts_codes], ?_, ?_⟩
    · exact reads_append.2 ⟨reads_of_reads_nil (reads_nil_of_reads (reads_append.1 hr).1) (by decide), by decide⟩
    · exact depthAfter?_append.2 ⟨0, hus, by decide⟩
  · obtain ⟨rfl, rfl⟩ : y = [] ∧ r = [] := by
      have hlen := congrArg List.length hnl
      simp only [List.length_append, List.length_cons, List.length_nil] at hlen
      exact ⟨List.length_eq_zero_iff.1 (by omega), List.length_eq_zero_iff.1 (by omega)⟩
    obtain ⟨e, hus, he⟩ := depthAfter?_append.1 hd
    cases he
    obtain ⟨hreads, hrest⟩ := reads_append.1 hr
    have hbody := (reads_cons.1 hrest).1
    rw [Piece.isClosed, Bool.not_eq_true', List.append_nil] at hbody
    rw [List.append_assoc, List.cons_append, List.cons_append]
    refine isLine_of_comment ((reads_slash us _).symm.trans hreads) hus ?_
    rw [List.any_append, hbody]
    rfl

end

end IsLine

/-- Pieces whose text does not end with a slash are read in front of every text. -/
theorem reads_of_getLast? {ps : List Piece} (h : reads ps [] = true) (hlast : (texts ps).getLast? ≠ some '/')
    (rest : Text) : reads ps rest = true := by
  induction ps with
  | nil => rfl
  | cons p ps ih =>
    obtain ⟨hp, hs, hps⟩ := reads_cons.1 h
    have hne : ps ≠ [] → texts ps ≠ [] := by
      intro hne e
      obtain ⟨q, qs, rfl⟩ := List.exists_cons_of_ne_nil hne
      exact q.text_ne_nil (List.append_eq_nil_iff.1 e).1
    by_cases hnil : ps = []
    · subst hnil
      refine reads_cons.2 ⟨hp, ?_, rfl⟩
      rintro rfl
      exact absurd rfl hlast
    · rw [texts_cons, List.getLast?_append_of_ne_nil _ (hne hnil)] at hlast
      refine reads_cons.2 ⟨hp, fun e => ?_, ih hps hlast⟩
      have ho := hs e
      rw [List.append_nil] at ho
      rw [opensComment_append, if_neg (hne hnil), ho]

theorem IsBalanced.append {a b : Text} (ha : IsBalanced a) (hb : IsBalanced b) (hlast : a.getLast? ≠ some '/') :
    IsBalanced (a ++ b) := by
  obtain ⟨ps, rfl, hr, hd⟩ := ha
  obtain ⟨qs, rfl, hr', hd'⟩ := hb
  exact ⟨ps ++ qs, texts_append ps qs, reads_append.2 ⟨reads_of_getLast? hr hlast _, hr'⟩,
    depthAfter?_append.2 ⟨0, hd, hd'⟩⟩

theorem isBalanced_unlines {ls : List Text} (h : ∀ l ∈ ls, IsLine l) : IsBalanced (Text.unlines ls) := by
  induction ls with
  | nil => exact ⟨[], rfl, rfl, rfl⟩
  | cons l ls ih =>
    have hl : (l ++ ['\n']).getLast? ≠ some '/' := by
      rw [List.getLast?_concat]
      decide
    exact IsBalanced.append (h l List.mem_cons_self) (ih fun l' hl' => h l' (List.mem_cons_of_mem l hl')) hl

end ThriftModules.Script
