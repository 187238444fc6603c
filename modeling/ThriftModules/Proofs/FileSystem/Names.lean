import Mathlib.Data.List.TakeWhile
import ThriftModules.FileSystem.Path

/-!
# The names of a path

* `names` : the segments of a path without the dots, which is all that tells where it leads;
* `IsName` : what an entry of a directory can be called;
* `segments_join`, `names_join` : a name put below a path is its last one;
* `names_parent` : the parent of a path goes through the same names but the last.
-/

namespace ThriftModules.Path

set_option autoImplicit false

/-! ## Pieces -/

theorem pieces_ne_nil (t : OsText) : pieces t ≠ [] := by
  fun_cases pieces t <;> simp

theorem pieces_append_slash (a b : OsText) : pieces (a ++ '/' :: b) = pieces a ++ pieces b := by
  induction a with
  | nil => simp [pieces]
  | cons c a ih =>
    by_cases hc : c = '/'
    · simp [pieces, hc, ih]
    · cases ha : pieces a with
      | nil => exact absurd ha (pieces_ne_nil a)
      | cons p ps => simp [pieces, hc, ih, ha]

theorem pieces_of_notMem {t : OsText} (h : '/' ∉ t) : pieces t = [t] := by
  induction t with
  | nil => rfl
  | cons c t ih =>
    have hc : c ≠ '/' := fun e => h (e ▸ List.mem_cons_self)
    simp [pieces, hc, ih fun ht => h (List.mem_cons_of_mem c ht)]

theorem notMem_of_mem_pieces {t n : OsText} (h : n ∈ pieces t) : '/' ∉ n := by
  induction t generalizing n with
  | nil =>
    rw [List.mem_singleton.1 h]
    exact List.not_mem_nil
  | cons c t ih =>
    by_cases hc : c = '/'
    · rw [pieces, if_pos hc] at h
      rcases List.mem_cons.1 h with rfl | h
      · exact List.not_mem_nil
      · exact ih h
    · cases ht : pieces t with
      | nil => exact absurd ht (pieces_ne_nil t)
      | cons p ps =>
        simp only [pieces, if_neg hc, ht, List.mem_cons] at h
        rcases h with rfl | h
        · rw [List.mem_cons, not_or]
          exact ⟨Ne.symm hc, ih (ht ▸ List.mem_cons_self)⟩
        · exact ih (ht ▸ List.mem_cons_of_mem p h)

theorem segments_append_slash (a b : OsText) : segments (a ++ '/' :: b) = segments a ++ segments b := by
  simp only [segments, pieces_append_slash, List.filter_append]

theorem segments_of_notMem {t : OsText} (h : '/' ∉ t) (hne : t ≠ []) : segments t = [t] := by
  simp [segments, pieces_of_notMem h, hne]

@[simp] theorem segments_nil : segments [] = [] := rfl

/-! ## Names -/

/-- The names that a path goes through, without the dots. -/
def names (p : Path) : List OsText := (segments p).filter (· ≠ ['.'])

structure IsName (n : OsText) : Prop where
  nonempty : n ≠ []
  notDot : n ≠ ['.']
  notDotDot : n ≠ ['.', '.']
  noSlash : '/' ∉ n

instance (n : OsText) : Decidable (IsName n) :=
  decidable_of_iff (n ≠ [] ∧ n ≠ ['.'] ∧ n ≠ ['.', '.'] ∧ '/' ∉ n)
    ⟨fun ⟨h₁, h₂, h₃, h₄⟩ => ⟨h₁, h₂, h₃, h₄⟩, fun h => ⟨h.nonempty, h.notDot, h.notDotDot, h.noSlash⟩⟩

@[simp] theorem names_nil : names [] = [] := rfl

theorem isName_of_mem_segments {p : Path} {n : OsText} (h : n ∈ segments p) (hdot : n ≠ ['.'])
    (hdotDot : n ≠ ['.', '.']) : IsName n := by
  obtain ⟨hp, hne⟩ := List.mem_filter.1 h
  exact ⟨by simpa using hne, hdot, hdotDot, notMem_of_mem_pieces hp⟩

theorem names_append_slash (a b : OsText) : names (a ++ '/' :: b) = names a ++ names b := by
  simp only [names, segments_append_slash, List.filter_append]

theorem names_slash (t : OsText) : names ('/' :: t) = names t := names_append_slash [] t

theorem names_of_notMem {t : OsText} (h : '/' ∉ t) (hne : t ≠ []) (hdot : t ≠ ['.']) : names t = [t] := by
  simp [names, segments_of_notMem h hne, hdot]

/-- A text without a slash is a name when more than two characters follow it. -/
theorem isName_append {t suffix : OsText} (ht : '/' ∉ t) (hs : '/' ∉ suffix) (hlen : 2 < suffix.length) :
    IsName (t ++ suffix) := by
  have hlong : 2 < (t ++ suffix).length := by
    rw [List.length_append]
    omega
  refine ⟨?_, ?_, ?_, by simp [ht, hs]⟩ <;>
  · intro e
    rw [e] at hlong
    simp at hlong

/-! ## A name below a path -/

section
variable {base n : OsText}

theorem IsName.isAbsolute (h : IsName n) : isAbsolute n = false := by
  cases n with
  | nil => exact absurd rfl h.nonempty
  | cons c n =>
    have hc : c ≠ '/' := fun e => h.noSlash (e ▸ List.mem_cons_self)
    simp [Path.isAbsolute, hc]

theorem exists_of_endsWithSlash (h : endsWithSlash base = true) : ∃ b, base = b ++ ['/'] := by
  have hl : base.getLast? = some '/' := by simpa [endsWithSlash] using h
  obtain ⟨b, hb⟩ := List.getLast?_eq_some_iff.1 hl
  exact ⟨b, hb⟩

theorem join_cases (base : OsText) (h : IsName n) :
    base = [] ∧ join base n = n ∨ (∃ b, base = b ++ ['/'] ∧ join base n = b ++ '/' :: n) ∨
      base ≠ [] ∧ join base n = base ++ '/' :: n := by
  unfold join
  rw [h.isAbsolute]
  cases base with
  | nil => exact .inl ⟨rfl, rfl⟩
  | cons c base =>
    cases hs : endsWithSlash (c :: base) with
    | false => exact .inr (.inr ⟨List.cons_ne_nil c base, by simp⟩)
    | true =>
      obtain ⟨b, hb⟩ := exists_of_endsWithSlash hs
      exact .inr (.inl ⟨b, hb, by simp [hb]⟩)

theorem segments_join (h : IsName n) : segments (join base n) = segments base ++ [n] := by
  have hn : segments n = [n] := segments_of_notMem h.noSlash h.nonempty
  rcases join_cases base h with ⟨hb, hj⟩ | ⟨b, hb, hj⟩ | ⟨-, hj⟩
  · rw [hj, hb, hn]
    rfl
  · rw [hj, hb, segments_append_slash, segments_append_slash, hn]
    simp
  · rw [hj, segments_append_slash, hn]

theorem names_join (h : IsName n) : names (join base n) = names base ++ [n] := by
  unfold names
  rw [segments_join h, List.filter_append]
  simp [h.notDot]

theorem isAbsolute_join (h : IsName n) : isAbsolute (join base n) = isAbsolute base := by
  rcases join_cases base h with ⟨hb, hj⟩ | ⟨b, hb, hj⟩ | ⟨hb, hj⟩
  · rw [hj, hb, h.isAbsolute]
    rfl
  · rw [hj, hb]
    cases b <;> rfl
  · rw [hj]
    cases base with
    | nil => exact absurd rfl hb
    | cons c base => rfl

theorem join_ne_nil (h : IsName n) : join base n ≠ [] := by
  rcases join_cases base h with ⟨-, hj⟩ | ⟨b, -, hj⟩ | ⟨-, hj⟩ <;> rw [hj]
  · exact h.nonempty
  · simp
  · simp

theorem endsWithSlash_join (h : IsName n) : endsWithSlash (join base n) = false := by
  have hn : endsWithSlash n = false := by
    rw [Bool.eq_false_iff]
    intro hs
    obtain ⟨b, hb⟩ := exists_of_endsWithSlash hs
    exact h.noSlash (by simp [hb])
  have happ : ∀ a : Text, endsWithSlash (a ++ '/' :: n) = endsWithSlash n := by
    intro a
    cases n with
    | nil => exact absurd rfl h.nonempty
    | cons c n => simp [endsWithSlash, List.getLast?_append, List.getLast?_cons]
  rcases join_cases base h with ⟨-, hj⟩ | ⟨b, -, hj⟩ | ⟨-, hj⟩
  · rw [hj, hn]
  · rw [hj, happ, hn]
  · rw [hj, happ, hn]

theorem steps_join (h : IsName n) : steps (join base n) = segments base ++ [n] := by
  simp [steps, segments_join h, endsWithSlash_join h]

end

theorem size_le_join (base : OsText) {n : OsText} (h : IsName n) : OsText.size base ≤ OsText.size (join base n) := by
  unfold OsText.size
  rcases join_cases base h with ⟨hb, -⟩ | ⟨b, hb, hj⟩ | ⟨-, hj⟩
  · simp [hb]
  · rw [hj, hb, List.length_append, List.length_append, List.length_cons]
    simp
  · rw [hj, List.length_append]
    omega

/-! ## The parent of a path -/

theorem dropIdleEnd_suffix (r : OsText) : dropIdleEnd r <:+ r := by
  fun_induction dropIdleEnd r with
  | case1 r ih => exact ih.trans (List.suffix_cons '/' r)
  | case2 r ih => exact ih.trans ((List.suffix_cons '/' r).trans (List.suffix_cons '.' ('/' :: r)))
  | case3 => exact List.nil_suffix
  | case4 r => exact List.suffix_refl r

theorem names_dropIdleEnd (r : OsText) : names (dropIdleEnd r).reverse = names r.reverse := by
  fun_induction dropIdleEnd r with
  | case1 r ih =>
    rw [ih, List.reverse_cons, names_append_slash r.reverse []]
    simp
  | case2 r ih =>
    rw [ih, List.reverse_cons, List.reverse_cons, List.append_assoc]
    exact ((names_append_slash r.reverse ['.']).trans (List.append_nil _)).symm
  | case3 => rfl
  | case4 => rfl

theorem dropIdleEnd_name (r : OsText) (h : dropIdleEnd r ≠ []) :
    (dropIdleEnd r).takeWhile (· ≠ '/') ≠ [] ∧ (dropIdleEnd r).takeWhile (· ≠ '/') ≠ ['.'] := by
  fun_induction dropIdleEnd r with
  | case1 r ih => exact ih h
  | case2 r ih => exact ih h
  | case3 => exact absurd rfl h
  | case4 r hslash hdotSlash hdot =>
    cases r with
    | nil => exact absurd rfl h
    | cons c r =>
      have hc : c ≠ '/' := by
        rintro rfl
        exact hslash r rfl
      refine ⟨by simp [hc], ?_⟩
      intro ht
      rw [List.takeWhile_cons, if_pos (by simpa using hc), List.cons.injEq] at ht
      obtain ⟨rfl, ht⟩ := ht
      cases r with
      | nil => exact hdot rfl
      | cons d r =>
        by_cases hd : d = '/'
        · subst hd
          exact hdotSlash r rfl
        · rw [List.takeWhile_cons, if_pos (by simpa using hd)] at ht
          cases ht

/-- The names in front of the last one, for a path read from its end. -/
theorem names_parentFrom (r : OsText) :
    names (dropIdleEnd ((dropIdleEnd r).dropWhile (· ≠ '/'))).reverse = (names r.reverse).dropLast := by
  rw [names_dropIdleEnd, ← names_dropIdleEnd r]
  by_cases hr : dropIdleEnd r = []
  · rw [hr]
    rfl
  obtain ⟨hne, hdot⟩ := dropIdleEnd_name r hr
  generalize dropIdleEnd r = out at hne hdot ⊢
  have hsplit : out.takeWhile (· ≠ '/') ++ out.dropWhile (· ≠ '/') = out := List.takeWhile_append_dropWhile
  have hslash : '/' ∉ out.takeWhile (· ≠ '/') := fun hm => by simpa using List.mem_takeWhile_imp hm
  generalize out.takeWhile (· ≠ '/') = last at *
  have hlast : names last.reverse = [last.reverse] := by
    refine names_of_notMem (by simpa using hslash) (by simpa using hne) fun e => hdot ?_
    rw [← List.reverse_reverse last, e]
    rfl
  cases hd : out.dropWhile (· ≠ '/') with
  | nil =>
    rw [hd, List.append_nil] at hsplit
    rw [← hsplit, hlast]
    rfl
  | cons c rest =>
    have hc : c = '/' := by
      have := List.head?_dropWhile_not (p := (· ≠ '/')) out
      rw [hd] at this
      simpa using this
    subst hc
    rw [hd] at hsplit
    rw [← hsplit, List.reverse_append, List.reverse_cons, List.append_assoc]
    show names (rest.reverse ++ '/' :: []) = (names (rest.reverse ++ '/' :: last.reverse)).dropLast
    rw [names_append_slash, names_append_slash, hlast, List.dropLast_concat]
    simp

theorem isAbsolute_of_prefix {a b : OsText} (h : a <+: b) (hb : isAbsolute b = false) : isAbsolute a = false := by
  obtain ⟨c, rfl⟩ := h
  cases a with
  | nil => rfl
  | cons d a => exact hb

theorem parentFrom_isPrefix (t : OsText) : parentFrom [] t.reverse <+: t := by
  have hsuffix : dropIdleEnd ((dropIdleEnd t.reverse).dropWhile (· ≠ '/')) <:+ t.reverse :=
    (dropIdleEnd_suffix _).trans ((List.dropWhile_suffix _).trans (dropIdleEnd_suffix _))
  simpa [parentFrom] using List.reverse_prefix.2 hsuffix

theorem names_dot_append {t u : OsText} (h : t <+: '/' :: u) : names ('.' :: t) = names t := by
  cases t with
  | nil => rfl
  | cons c t =>
    obtain ⟨v, hv⟩ := h
    obtain rfl : c = '/' := by simpa using congrArg List.head? hv
    exact (names_append_slash ['.'] t).trans (names_slash t).symm

/-- The parent starts where the path starts and goes through its names but the last. -/
theorem names_parent {p q : Path} (h : parent? p = some q) :
    names q = (names p).dropLast ∧ isAbsolute q = isAbsolute p := by
  fun_cases parent? p with
  | case1 body hb => simp [parent?, hb] at h
  | case2 body hb =>
    rw [parent?, if_neg hb] at h
    cases h
    have hn := names_parentFrom body.reverse
    rw [List.reverse_reverse] at hn
    exact ⟨by rw [names_slash, ← hn]; exact names_slash _, rfl⟩
  | case3 =>
    cases h
    exact ⟨rfl, rfl⟩
  | case4 body hb =>
    rw [parent?, if_pos hb] at h
    cases h
    have hn := names_dropIdleEnd body.reverse
    rw [hb, List.reverse_reverse] at hn
    refine ⟨?_, rfl⟩
    rw [show names ('.' :: '/' :: body) = names body from names_append_slash ['.'] body, ← hn]
    rfl
  | case5 body hb =>
    rw [parent?, if_neg hb] at h
    cases h
    have hn := names_parentFrom ('/' :: body).reverse
    have hprefix := parentFrom_isPrefix ('/' :: body)
    rw [List.reverse_reverse] at hn
    rw [List.reverse_cons] at hn hprefix
    refine ⟨(names_dot_append hprefix).trans (hn.trans ?_), rfl⟩
    exact congrArg List.dropLast ((names_slash body).trans (names_append_slash ['.'] body).symm)
  | case6 => simp [parent?] at h
  | case7 body habs hdot hdotSlash hnil =>
    rw [parent?] at h
    · cases h
      have hn := names_parentFrom p.reverse
      rw [List.reverse_reverse] at hn
      refine ⟨hn, ?_⟩
      have hp : isAbsolute p = false := by
        cases p with
        | nil => rfl
        | cons c p =>
          have hc : c ≠ '/' := fun e => habs p (by rw [e])
          simp [isAbsolute, hc]
      rw [hp]
      exact isAbsolute_of_prefix (parentFrom_isPrefix p) hp
    all_goals assumption

theorem names_of_parent?_eq_none {p : Path} (h : parent? p = none) : names p = [] := by
  fun_cases parent? p with
  | case1 body hb =>
    have hn := names_dropIdleEnd body.reverse
    rw [hb, List.reverse_reverse] at hn
    rw [names_slash, ← hn]
    rfl
  | case2 body hb => simp [parent?, hb] at h
  | case3 => cases h
  | case4 body hb => simp [parent?, hb] at h
  | case5 body hb => simp [parent?, hb] at h
  | case6 => rfl
  | case7 body habs hdot hdotSlash hnil =>
    rw [parent?] at h
    · cases h
    all_goals assumption

end ThriftModules.Path
