import Mathlib.Data.List.Basic
import ThriftModules.Proofs.Text.Sites
import ThriftModules.Proofs.Text.Trim

/-!
# Words, blanks and keywords

* `IsWord`, `IsBlanks`, `IsGap` : a word, blanks, and blanks that set two tokens apart;
* `stripKeyword?_eq_some_iff` : a keyword is stripped with the gap behind it;
* `contains_iff` : a text contains a needle exactly if the needle is an infix of it;
* `prefix_trim` : what stands between two characters that are not blank is not trimmed.
-/

namespace ThriftModules.Text

set_option autoImplicit false

def IsWord (t : Text) : Prop := t ≠ [] ∧ ∀ c ∈ t, isWordChar c = true

def IsBlanks (t : Text) : Prop := ∀ c ∈ t, isBlank c = true

def IsGap (t : Text) : Prop := t ≠ [] ∧ IsBlanks t

instance (t : Text) : Decidable (IsWord t) := inferInstanceAs (Decidable (t ≠ [] ∧ ∀ c ∈ t, isWordChar c = true))

instance (t : Text) : Decidable (IsBlanks t) := inferInstanceAs (Decidable (∀ c ∈ t, isBlank c = true))

instance (t : Text) : Decidable (IsGap t) := inferInstanceAs (Decidable (t ≠ [] ∧ IsBlanks t))

section
variable {t r a word keyword needle : Text} {c : Char}

theorem not_isWordChar_of_isBlank (h : isBlank c = true) : isWordChar c = false := by
  rw [← Bool.not_eq_true]
  intro hword
  rw [isBlank_of_isWordChar hword] at h
  cases h

theorem IsBlanks.notMem (h : IsBlanks t) (hc : isBlank c = false) : c ∉ t := by
  intro hmem
  rw [h c hmem] at hc
  cases hc

theorem IsBlanks.trimStart_append (h : IsBlanks a) (t : Text) : trimStart (a ++ t) = trimStart t :=
  List.dropWhile_append_of_pos h

theorem IsGap.isBlank_head? (h : IsGap a) (t : Text) (hc : (a ++ t).head? = some c) : isBlank c = true := by
  rw [List.head?_append_of_ne_nil _ h.1] at hc
  exact h.2 c (List.mem_of_head? hc)

theorem IsWord.trimStart_append (h : IsWord word) (t : Text) : trimStart (word ++ t) = word ++ t := by
  refine trimStart_eq_self fun c hc => ?_
  rw [List.head?_append_of_ne_nil _ h.1] at hc
  exact isBlank_of_isWordChar (h.2 c (List.mem_of_head? hc))

theorem IsWord.takeWord_append (h : IsWord word) (hr : ∀ c, r.head? = some c → isWordChar c = false) :
    takeWord (word ++ r) = word ∧ (word ++ r).dropWhile isWordChar = r := by
  rw [takeWord, List.takeWhile_append_of_pos h.2, List.dropWhile_append_of_pos h.2]
  cases r with
  | nil => simp
  | cons c r =>
    have hc : ¬isWordChar c = true := by simp [hr c rfl]
    rw [List.takeWhile_cons_of_neg hc, List.dropWhile_cons_of_neg hc, List.append_nil]
    exact ⟨rfl, rfl⟩

theorem exists_indent (h : t.head?.any isBlank = true) : ∃ indent, IsGap indent ∧ t = indent ++ trimStart t := by
  obtain ⟨c, hc, hblank⟩ := (Option.any_eq_true _ _).1 h
  obtain ⟨indent, hindent, hblanks⟩ := exists_trimStart t
  refine ⟨indent, ⟨?_, hblanks⟩, hindent⟩
  rintro rfl
  rw [List.nil_append] at hindent
  rw [hindent] at hc
  rw [isBlank_head?_trimStart hc] at hblank
  cases hblank

/-! ## Keywords -/

theorem IsGap.afterBlanks?_append (h : IsGap a) (t : Text) : afterBlanks? (a ++ t) = some (trimStart t) := by
  obtain ⟨c, gap, rfl⟩ := List.exists_cons_of_ne_nil h.1
  obtain ⟨hc, hgap⟩ := List.forall_mem_cons.1 h.2
  rw [List.cons_append, afterBlanks?, if_pos hc, IsBlanks.trimStart_append hgap]

theorem afterBlanks?_eq_some_iff : afterBlanks? t = some r ↔ ∃ gap, IsGap gap ∧ t = gap ++ r ∧ trimStart r = r := by
  constructor
  · intro h
    cases t with
    | nil => cases h
    | cons c t =>
      rw [afterBlanks?] at h
      split at h
      · next hc =>
        cases h
        obtain ⟨gap, hgap, hblanks⟩ := exists_trimStart t
        have hrest : trimStart (trimStart t) = trimStart t := trimStart_eq_self fun _ hd => isBlank_head?_trimStart hd
        refine ⟨c :: gap, ⟨by simp, List.forall_mem_cons.2 ⟨hc, hblanks⟩⟩, ?_, hrest⟩
        rw [List.cons_append, ← hgap]
      · cases h
  · rintro ⟨gap, hgap, rfl, hrest⟩
    rw [hgap.afterBlanks?_append, hrest]

theorem stripKeyword?_eq_some_iff :
    stripKeyword? keyword t = some r ↔ ∃ gap, IsGap gap ∧ t = keyword ++ (gap ++ r) ∧ trimStart r = r := by
  rw [stripKeyword?, Option.bind_eq_some_iff]
  simp only [stripStart?_eq_some_iff, afterBlanks?_eq_some_iff]
  constructor
  · rintro ⟨_, rfl, gap, hgap, rfl, hrest⟩
    exact ⟨gap, hgap, rfl, hrest⟩
  · rintro ⟨gap, hgap, rfl, hrest⟩
    exact ⟨gap ++ r, rfl, gap, hgap, rfl, hrest⟩

theorem IsGap.stripKeyword?_append (h : IsGap a) (keyword t : Text) :
    stripKeyword? keyword (keyword ++ (a ++ t)) = some (trimStart t) := by
  rw [stripKeyword?, stripStart?_eq_some_iff.2 rfl, Option.bind_some, h.afterBlanks?_append]

/-! ## Occurrences and ends -/

theorem contains_iff : contains t needle = true ↔ needle <:+: t := by
  rw [contains]
  induction t with
  | nil =>
    rw [splitFirst?, Option.isSome_map, ← startsWith, startsWith_iff, List.infix_nil, List.prefix_nil]
  | cons c t ih =>
    rw [List.infix_cons_iff, ← startsWith_iff, startsWith, splitFirst?]
    cases stripStart? needle (c :: t) with
    | some rest => simp
    | none => simpa using ih

theorem splitFirst?_eq_none_iff : splitFirst? needle t = none ↔ ¬needle <:+: t := by
  rw [← contains_iff, contains, Bool.not_eq_true, Option.isSome_eq_false_iff, Option.isNone_iff_eq_none]

/-- A needle does not reach over a character that it does not hold. -/
theorem infix_append_cons_iff {q : Char} (hn : needle ≠ []) (hq : q ∉ needle) (t r : Text) :
    needle <:+: t ++ q :: r ↔ needle <:+: t ∨ needle <:+: r := by
  rw [← contains_iff, ← contains_iff, ← contains_iff, contains, splitFirst?_append_cons hn hq, contains, contains]
  cases splitFirst? needle t with
  | some s => simp
  | none => simp

/-- A needle does not start in a text that lacks its first character. -/
theorem infix_of_infix_append {front : Text} (hc : c ∉ front) (h : c :: needle <:+: front ++ t) :
    c :: needle <:+: t := by
  induction front with
  | nil => exact h
  | cons d front ih =>
    rcases List.infix_cons_iff.1 h with ⟨rest, hstart⟩ | hwithin
    · exact absurd (List.mem_cons.2 (.inl (List.cons.inj hstart).1)) hc
    · exact ih (fun hmem => hc (List.mem_cons_of_mem d hmem)) hwithin

/-- The characters up to one that is not blank are not trimmed, if the first one is not blank. -/
theorem prefix_trim (hhead : ∀ d, (t ++ [c]).head? = some d → isBlank d = false) (hc : isBlank c = false) (r : Text) :
    t ++ [c] <+: trim (t ++ c :: r) := by
  have hsplit : t ++ c :: r = (t ++ [c]) ++ r := by rw [List.append_assoc]; rfl
  have hstart : trimStart (t ++ c :: r) = t ++ c :: r := by
    refine trimStart_eq_self fun d hd => hhead d ?_
    rwa [hsplit, List.head?_append_of_ne_nil _ (by simp)] at hd
  rw [trim, hstart, trimEnd_append_cons hc]
  exact ⟨trimEnd r, by rw [List.append_assoc]; rfl⟩

end

end ThriftModules.Text
