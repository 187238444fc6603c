import Mathlib.Data.List.Induction
import Mathlib.Data.List.TakeWhile
import ThriftModules.Text.Basic

/-!
# Blanks and trimmed texts

* `isBlank_of_isIdentChar` : no character of a word or an identifier is blank;
* `trimStart_eq_self`, `trimEnd_eq_self`, `trim_eq_self` : a text whose first and last characters are not blank is not
  trimmed;
* `isBlank_of_trim_eq_self` : a text that is not trimmed has no blank at its ends;
* `exists_trim`, `trim_trim`, `trim_blank_append` : blanks at the ends are what trimming removes;
* `trimEnd_append_cons`, `filter_trim` : it stops at characters that are not blank, and keeps them all.
-/

namespace ThriftModules.Text

set_option autoImplicit false

/-! ## Blanks and words -/

theorem toNat_of_isWordChar {c : Char} (h : isWordChar c = true) : 48 ≤ c.toNat ∧ c.toNat ≤ 122 := by
  unfold isWordChar Char.isAlphanum Char.isAlpha Char.isUpper Char.isLower Char.isDigit at h
  simp only [Bool.or_eq_true, Bool.and_eq_true, decide_eq_true_eq, beq_iff_eq, UInt32.le_iff_toNat_le, ge_iff_le,
    Char.toNat_val] at h
  rcases h with ((⟨hl, hu⟩ | ⟨hl, hu⟩) | ⟨hl, hu⟩) | rfl
  · exact ⟨Nat.le_trans (by decide) hl, Nat.le_trans hu (by decide)⟩
  · exact ⟨Nat.le_trans (by decide) hl, Nat.le_trans hu (by decide)⟩
  · exact ⟨Nat.le_trans (by decide) hl, Nat.le_trans hu (by decide)⟩
  · decide

theorem isBlank_of_isWordChar {c : Char} (h : isWordChar c = true) : isBlank c = false := by
  have hn := toNat_of_isWordChar h
  simp [isBlank, blankRanges]
  omega

theorem isBlank_of_isIdentChar {c : Char} (h : isIdentChar c = true) : isBlank c = false := by
  rcases Bool.or_eq_true_iff.1 h with h | h
  · exact isBlank_of_isWordChar h
  · rw [beq_iff_eq] at h
    subst h
    decide

theorem not_isIdentChar_of_isBlank {c : Char} (h : isBlank c = true) : isIdentChar c = false := by
  cases hident : isIdentChar c with
  | false => rfl
  | true =>
    rw [isBlank_of_isIdentChar hident] at h
    cases h

/-! ## Trimming -/

theorem trimStart_eq_self {t : Text} (h : ∀ c, t.head? = some c → isBlank c = false) : trimStart t = t := by
  cases t with
  | nil => rfl
  | cons c t => exact List.dropWhile_cons_of_neg (by simp [h c rfl])

theorem trimEnd_eq_self {t : Text} (h : ∀ c, t.getLast? = some c → isBlank c = false) : trimEnd t = t := by
  have hr : trimStart t.reverse = t.reverse := trimStart_eq_self fun c hc => h c (by rwa [List.head?_reverse] at hc)
  rw [trimEnd, ← trimStart, hr, List.reverse_reverse]

theorem trim_eq_self {t : Text} (hhead : ∀ c, t.head? = some c → isBlank c = false)
    (hlast : ∀ c, t.getLast? = some c → isBlank c = false) : trim t = t := by
  rw [trim, trimStart_eq_self hhead, trimEnd_eq_self hlast]

theorem isBlank_head?_trimStart {t : Text} {c : Char} (h : (trimStart t).head? = some c) : isBlank c = false := by
  have hc := List.head?_dropWhile_not isBlank t
  rw [← trimStart, h] at hc
  exact hc

theorem trimStart_length_le (t : Text) : (trimStart t).length ≤ t.length :=
  (List.dropWhile_sublist isBlank).length_le

theorem trimEnd_length_le (t : Text) : (trimEnd t).length ≤ t.length := by
  have h := trimStart_length_le t.reverse
  rwa [trimStart, List.length_reverse, ← List.length_reverse] at h

theorem isBlank_of_trim_eq_self {t : Text} (h : trim t = t) {c : Char}
    (hc : t.head? = some c ∨ t.getLast? = some c) : isBlank c = false := by
  have hstart : trimStart t = t := by
    have hlen : t.length ≤ (trimStart t).length := by
      have := trimEnd_length_le (trimStart t)
      rwa [← trim, h] at this
    exact (List.dropWhile_suffix isBlank).eq_of_length (Nat.le_antisymm (trimStart_length_le t) hlen)
  rcases hc with hc | hc
  · exact isBlank_head?_trimStart (hstart.symm ▸ hc)
  · rw [trim, hstart, trimEnd] at h
    refine isBlank_head?_trimStart (t := t.reverse) ?_
    rw [← h, List.getLast?_reverse] at hc
    exact hc

theorem exists_trimStart (t : Text) : ∃ a, t = a ++ trimStart t ∧ ∀ c ∈ a, isBlank c = true :=
  ⟨t.takeWhile isBlank, List.takeWhile_append_dropWhile.symm, fun _ hc => List.mem_takeWhile_imp hc⟩

theorem exists_trimEnd (t : Text) : ∃ b, t = trimEnd t ++ b ∧ ∀ c ∈ b, isBlank c = true := by
  obtain ⟨a, ha, hblank⟩ := exists_trimStart t.reverse
  refine ⟨a.reverse, ?_, fun c hc => hblank c (List.mem_reverse.1 hc)⟩
  rw [trimEnd, ← trimStart, ← List.reverse_append, ← ha, List.reverse_reverse]

theorem exists_trim (t : Text) :
    ∃ a b, t = a ++ (trim t ++ b) ∧ (∀ c ∈ a, isBlank c = true) ∧ ∀ c ∈ b, isBlank c = true := by
  obtain ⟨a, ha, hstart⟩ := exists_trimStart t
  obtain ⟨b, hb, hend⟩ := exists_trimEnd (trimStart t)
  exact ⟨a, b, by rw [trim, ← hb, ← ha], hstart, hend⟩

theorem trim_trim (t : Text) : trim (trim t) = trim t := by
  refine trim_eq_self (fun c hc => ?_) (fun c hc => ?_)
  · obtain ⟨b, hb, -⟩ := exists_trimEnd (trimStart t)
    refine isBlank_head?_trimStart (t := t) ?_
    rw [hb, List.head?_append, ← trim, hc]
    rfl
  · rw [trim, trimEnd, List.getLast?_reverse] at hc
    exact isBlank_head?_trimStart hc

theorem trim_cons_blank {c : Char} (h : isBlank c = true) (t : Text) : trim (c :: t) = trim t := by
  rw [trim, trim, trimStart, trimStart, List.dropWhile_cons_of_pos h]

theorem trim_append_blank {c : Char} (h : isBlank c = true) (t : Text) : trim (t ++ [c]) = trim t := by
  have hend : ∀ x : Text, trimEnd (x ++ [c]) = trimEnd x := by
    intro x
    rw [trimEnd, List.reverse_append, List.reverse_singleton, List.singleton_append, List.dropWhile_cons_of_pos h,
      ← trimEnd]
  rw [trim, trim, trimStart, trimStart, List.dropWhile_append]
  split
  · next hnil =>
    rw [List.isEmpty_iff.1 hnil, List.dropWhile_cons_of_pos h]
    rfl
  · exact hend _

theorem trim_blank_append {a b : Text} (ha : ∀ c ∈ a, isBlank c = true) (hb : ∀ c ∈ b, isBlank c = true) (t : Text) :
    trim (a ++ (t ++ b)) = trim t := by
  induction a with
  | nil =>
    induction b using List.reverseRecOn with
    | nil => rw [List.append_nil, List.nil_append]
    | append_singleton b c ih =>
      have hfront := List.forall_mem_append.1 hb
      rw [← List.append_assoc, ← List.append_assoc, trim_append_blank (hfront.2 c List.mem_cons_self), List.append_assoc,
        ih hfront.1]
  | cons c a ih =>
    rw [List.cons_append, trim_cons_blank (ha c List.mem_cons_self), ih fun d hd => ha d (List.mem_cons_of_mem c hd)]

theorem trimEnd_append_cons {c : Char} (h : isBlank c = false) (t u : Text) :
    trimEnd (t ++ c :: u) = t ++ c :: trimEnd u := by
  have hstop : ([c] ++ t.reverse).dropWhile isBlank = [c] ++ t.reverse :=
    List.dropWhile_cons_of_neg (by rw [h]; exact Bool.false_ne_true)
  rw [trimEnd, trimEnd, List.reverse_append, List.reverse_cons, List.append_assoc, List.dropWhile_append]
  split
  · next hnil =>
    rw [List.isEmpty_iff.1 hnil, hstop]
    simp
  · simp

theorem filter_trim (t : Text) : (trim t).filter (! isBlank ·) = t.filter (! isBlank ·) := by
  have hnone : ∀ {a : Text}, (∀ c ∈ a, isBlank c = true) → a.filter (! isBlank ·) = [] :=
    fun ha => List.filter_eq_nil_iff.2 fun c hc => by simp [ha c hc]
  obtain ⟨a, b, hab, ha, hb⟩ := exists_trim t
  calc (trim t).filter (! isBlank ·) = (a ++ (trim t ++ b)).filter (! isBlank ·) := by
        rw [List.filter_append, List.filter_append, hnone ha, hnone hb, List.nil_append, List.append_nil]
    _ = t.filter (! isBlank ·) := by rw [← hab]

end ThriftModules.Text
