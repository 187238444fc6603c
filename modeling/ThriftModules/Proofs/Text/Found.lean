import ThriftModules.Proofs.Text.Keywords
import ThriftModules.Proofs.Text.Sites

/-!
# What a search finds

* `sites_cons_of_none` : a search passes over a character at which the needle does not start;
* `IsUnbordered` : no end of the needle is a beginning of it, so that no two occurrences overlap;
* `mem_sites_iff` : every occurrence of such a needle is found;
* `splitFirst?_append_first` : the first one is the one in front of which it does not stand;
* `mem_keywordTails_iff` : the tails of a keyword are what stands behind its occurrences at the start of a word, and the
  blanks behind them.
-/

namespace ThriftModules.Text

set_option autoImplicit false

/-- No end of the needle is a beginning of it, the whole apart. -/
def IsUnbordered (needle : Text) : Prop := ∀ k < needle.length, 0 < k → ¬needle.drop k <+: needle

instance (needle : Text) : Decidable (IsUnbordered needle) :=
  inferInstanceAs (Decidable (∀ k < needle.length, 0 < k → ¬needle.drop k <+: needle))

section
variable {needle keyword line r after tail : Text} {c : Char} {b : Option Char}

theorem sites_cons_of_none (hn : needle ≠ []) (h : stripStart? needle (c :: r) = none) (before : Option Char) :
    sites needle before (c :: r) = sites needle (some c) r := by
  have hsplit : splitFirst? needle (c :: r) = (splitFirst? needle r).map fun s => (c :: s.1, s.2) := by
    rw [splitFirst?, h]
  cases hr : splitFirst? needle r with
  | none =>
    rw [hr] at hsplit
    rw [sites_of_none hsplit, sites_of_none hr]
  | some s =>
    rw [hr] at hsplit
    rw [sites_of_some hn hsplit, sites_of_some hn hr, getLast?_cons_or]

theorem sites_nil (hn : needle ≠ []) (before : Option Char) : sites needle before [] = [] := by
  obtain ⟨c, needle, rfl⟩ := List.exists_cons_of_ne_nil hn
  exact sites_of_none rfl

theorem exists_of_occurrences {front rest : Text} (h : IsUnbordered needle) (hne : front ≠ [])
    (hsplit : front ++ (needle ++ after) = needle ++ rest) : ∃ gap, front = needle ++ gap := by
  rcases Nat.lt_or_ge front.length needle.length with hlt | hle
  · have hfront : front <+: needle :=
      List.prefix_of_prefix_length_le ⟨_, hsplit⟩ (List.prefix_append needle rest) hlt.le
    obtain ⟨back, hback⟩ := hfront
    have hdrop : needle.drop front.length = back := by rw [← hback, List.drop_left]
    have hboth : front ++ (needle ++ after) = front ++ (back ++ rest) := by
      rw [hsplit, ← List.append_assoc, hback]
    have hbehind := List.append_cancel_left hboth
    have hstart : back <+: needle := by
      refine List.prefix_of_prefix_length_le ⟨rest, hbehind.symm⟩ (List.prefix_append needle after) ?_
      rw [← hdrop, List.length_drop]
      omega
    exact absurd (hdrop ▸ hstart) (h front.length hlt (List.length_pos_iff.2 hne))
  · obtain ⟨gap, hgap⟩ := List.prefix_of_prefix_length_le (List.prefix_append needle rest) ⟨_, hsplit⟩ hle
    exact ⟨gap, hgap.symm⟩

/-- Every occurrence of an unbordered needle is found. -/
theorem mem_sites_iff (hn : needle ≠ []) (h : IsUnbordered needle) (before : Option Char) (t : Text) :
    (b, after) ∈ sites needle before t ↔ ∃ front, t = front ++ (needle ++ after) ∧ b = front.getLast?.or before := by
  cases t with
  | nil =>
    rw [sites_nil hn]
    refine iff_of_false List.not_mem_nil ?_
    rintro ⟨front, hfront, -⟩
    simp [hn] at hfront
  | cons c r =>
    cases hs : stripStart? needle (c :: r) with
    | none =>
      have hfront : ∀ front, c :: r = front ++ (needle ++ after) → ∃ gap, front = c :: gap := by
        intro front hsplit
        cases front with
        | nil =>
          rw [List.nil_append] at hsplit
          rw [stripStart?_eq_some_iff.2 hsplit] at hs
          cases hs
        | cons d gap =>
          cases hsplit
          exact ⟨gap, rfl⟩
      rw [sites_cons_of_none hn hs, mem_sites_iff hn h (some c) r]
      constructor
      · rintro ⟨gap, rfl, rfl⟩
        exact ⟨c :: gap, rfl, (getLast?_cons_or c gap before).symm⟩
      · rintro ⟨front, hsplit, rfl⟩
        obtain ⟨gap, rfl⟩ := hfront front hsplit
        exact ⟨gap, (List.cons.inj hsplit).2, getLast?_cons_or c gap before⟩
    | some rest =>
      have hsplit := stripStart?_eq_some_iff.1 hs
      have hfirst : splitFirst? needle (c :: r) = some ([], rest) := by rw [splitFirst?, hs]
      have hlen : rest.length < r.length + 1 := by
        have hpos := List.length_pos_iff.2 hn
        rw [← List.length_cons (a := c), hsplit, List.length_append]
        omega
      have hlast : ∀ gap : Text, (needle ++ gap).getLast?.or before = gap.getLast?.or needle.getLast? := by
        intro gap
        rw [List.getLast?_append, Option.or_assoc, List.getLast?_eq_some_getLast hn, Option.some_or]
      rw [sites_of_some hn hfirst, List.mem_cons, mem_sites_iff hn h needle.getLast? rest, hsplit]
      constructor
      · rintro (heq | ⟨gap, rfl, rfl⟩)
        · cases heq
          exact ⟨[], rfl, rfl⟩
        · exact ⟨needle ++ gap, (List.append_assoc _ _ _).symm, (hlast gap).symm⟩
      · rintro ⟨front, hfront, rfl⟩
        by_cases hne : front = []
        · rw [hne, List.nil_append] at hfront
          rw [List.append_cancel_left hfront, hne]
          exact .inl rfl
        · obtain ⟨gap, rfl⟩ := exists_of_occurrences h hne hfront.symm
          rw [List.append_assoc] at hfront
          exact .inr ⟨gap, List.append_cancel_left hfront, hlast gap⟩
termination_by t.length

/-- The first occurrence of an unbordered needle is the one in front of which it does not stand. -/
theorem splitFirst?_append_first (hn : needle ≠ []) (h : IsUnbordered needle) {gap : Text}
    (hgap : ¬needle <:+: gap) (rest : Text) : splitFirst? needle (gap ++ (needle ++ rest)) = some (gap, rest) := by
  induction gap with
  | nil => exact splitFirst?_append hn rest
  | cons c gap ih =>
    have hstart : stripStart? needle (c :: (gap ++ (needle ++ rest))) = none := by
      rw [Option.eq_none_iff_forall_ne_some]
      intro r hr
      obtain ⟨gap', hgap'⟩ := exists_of_occurrences h (List.cons_ne_nil c gap) (stripStart?_eq_some_iff.1 hr)
      exact hgap (hgap' ▸ (List.prefix_append needle gap').isInfix)
    rw [List.cons_append, splitFirst?, hstart, ih fun hwithin => hgap (List.infix_cons hwithin)]
    rfl

/-- The tails of a keyword in a line: behind an occurrence that starts a word, and the blanks behind it. -/
theorem mem_keywordTails_iff (hn : keyword ≠ []) (h : IsUnbordered keyword) :
    tail ∈ keywordTails keyword line ↔
      ∃ front gap, line = front ++ (keyword ++ (gap ++ tail)) ∧ front.getLast?.any isWordChar = false ∧ IsGap gap ∧
        trimStart tail = tail := by
  rw [keywordTails_eq, List.mem_filterMap]
  constructor
  · rintro ⟨⟨b, after⟩, hsite, htail⟩
    obtain ⟨front, rfl, rfl⟩ := (mem_sites_iff hn h none line).1 hsite
    rw [Option.or_none] at htail
    split at htail
    · cases htail
    · next hword =>
      obtain ⟨gap, hgap, rfl, htrim⟩ := afterBlanks?_eq_some_iff.1 htail
      exact ⟨front, gap, rfl, Bool.eq_false_iff.2 hword, hgap, htrim⟩
  · rintro ⟨front, gap, rfl, hword, hgap, htrim⟩
    refine ⟨(front.getLast?, gap ++ tail), (mem_sites_iff hn h none _).2 ⟨front, rfl, (Option.or_none).symm⟩, ?_⟩
    rw [hword]
    exact afterBlanks?_eq_some_iff.2 ⟨gap, hgap, rfl, htrim⟩

end

end ThriftModules.Text
