import ThriftModules.Text.Search

/-!
# Searching around a character that the needle does not hold

* `sites needle before t` : what stands in front of each occurrence of `needle` in `t`, and what follows it;
* `sites_append_cons` : a character that is not in the needle cuts the search in two;
* `sites_append_blanks` : blanks between two such characters hold no site;
* `stripStart?_append_cons`, `afterBlanks?_append_cons`, `takeWhile_append_cons` : what is read behind a site stops at
  such a character;
* `contains_commentEnd_cons` : where the marker that closes a block comment can begin.
-/

namespace ThriftModules.Text

set_option autoImplicit false

/-! ## Reading up to a character -/

theorem stripStart?_append_cons {p : Text} {q : Char} (hq : q ∉ p) (t r : Text) :
    stripStart? p (t ++ q :: r) = (stripStart? p t).map (· ++ q :: r) := by
  fun_induction stripStart? p t with
  | case1 t => rfl
  | case2 c p =>
    have hc : c ≠ q := fun e => hq (by simp [e])
    rw [List.nil_append, stripStart?, if_neg hc]
    rfl
  | case3 p c t ih =>
    rw [List.cons_append, stripStart?, if_pos rfl]
    exact ih fun h => hq (List.mem_cons_of_mem c h)
  | case4 c p d t h =>
    rw [List.cons_append, stripStart?, if_neg h]
    rfl

theorem startsWith_append_cons {p : Text} {q : Char} (hq : q ∉ p) (t r : Text) :
    startsWith (t ++ q :: r) p = startsWith t p := by
  rw [startsWith, stripStart?_append_cons hq, Option.isSome_map]
  rfl

theorem startsWith_iff {t p : Text} : startsWith t p = true ↔ p <+: t := by
  rw [startsWith, Option.isSome_iff_exists]
  constructor
  · rintro ⟨r, hr⟩
    exact ⟨r, (stripStart?_eq_some_iff.1 hr).symm⟩
  · rintro ⟨r, hr⟩
    exact ⟨r, stripStart?_eq_some_iff.2 hr.symm⟩

theorem endsWith_iff {t s : Text} : endsWith t s = true ↔ s <:+ t := by
  rw [endsWith, startsWith_iff, List.reverse_prefix]

theorem takeWhile_append_cons {p : Char → Bool} {q : Char} (hq : p q = false) (t r : Text) :
    (t ++ q :: r).takeWhile p = t.takeWhile p := by
  induction t with
  | nil => simp [hq]
  | cons c t ih => simp only [List.cons_append, List.takeWhile_cons, ih]

theorem trimStart_append_cons {q : Char} (hq : isBlank q = false) (t r : Text) :
    trimStart (t ++ q :: r) = trimStart t ++ q :: r := by
  induction t with
  | nil => simp [trimStart, hq]
  | cons c t ih =>
    simp only [trimStart, List.cons_append, List.dropWhile_cons] at ih ⊢
    rw [ih]
    split <;> rfl

theorem afterBlanks?_append_cons {q : Char} (hq : isBlank q = false) (t r : Text) :
    afterBlanks? (t ++ q :: r) = (afterBlanks? t).map (· ++ q :: r) := by
  cases t with
  | nil => simp [afterBlanks?, hq]
  | cons c t =>
    rw [List.cons_append, afterBlanks?, afterBlanks?, trimStart_append_cons hq]
    split <;> rfl

theorem contains_cons_eq_false {needle t : Text} {c : Char} (h : contains (c :: t) needle = false) :
    stripStart? needle (c :: t) = none ∧ contains t needle = false := by
  rw [contains, splitFirst?] at h
  split at h
  · simp at h
  · next hn => exact ⟨hn, by simpa [contains] using h⟩

/-- A text that goes on without the marker that closes a block comment. -/
theorem contains_commentEnd_cons {t : Text} {c : Char} : contains (c :: t) "*/".toList = false ↔
    (c = '*' → t.head? ≠ some '/') ∧ contains t "*/".toList = false := by
  have hstart : stripStart? "*/".toList (c :: t) = none ↔ (c = '*' → t.head? ≠ some '/') := by
    rw [Option.eq_none_iff_forall_ne_some]
    constructor
    · rintro h rfl hhead
      obtain ⟨r, rfl⟩ := List.head?_eq_some_iff.1 hhead
      exact h r (stripStart?_eq_some_iff.2 rfl)
    · intro h r hr
      obtain ⟨rfl, rfl⟩ := List.cons.inj (stripStart?_eq_some_iff.1 hr)
      exact h rfl rfl
  rw [← hstart]
  refine ⟨contains_cons_eq_false, fun h => ?_⟩
  rw [contains, splitFirst?, h.1]
  simpa [contains] using h.2

theorem head?_append_commentEnd_ne {t : Text} (h : t.head? ≠ some '/') (r : Text) :
    (t ++ '*' :: '/' :: r).head? ≠ some '/' := by
  cases t with
  | nil => simp
  | cons c t => exact h

/-! ## Sites -/

theorem getLast?_cons_or (c : Char) (t : Text) (before : Option Char) :
    (c :: t).getLast?.or before = t.getLast?.or (some c) := by
  rw [List.getLast?_cons]
  cases t.getLast? <;> rfl

/-- The character in front of each occurrence of `needle` in `t`, and the text after it. -/
def sites (needle : Text) (before : Option Char) (t : Text) : List (Option Char × Text) :=
  (occurrencesFrom needle before t).map fun o => (o.before, o.after)

theorem occurrencesFrom_of_none {needle t : Text} {before : Option Char} (h : splitFirst? needle t = none) :
    occurrencesFrom needle before t = [] := by
  rw [occurrencesFrom]
  split
  · rfl
  · split
    · rfl
    · next g a hs => rw [h] at hs; cases hs

theorem occurrencesFrom_of_some {needle t gap after : Text} {before : Option Char} (hn : needle ≠ [])
    (h : splitFirst? needle t = some (gap, after)) :
    occurrencesFrom needle before t =
      ⟨gap, gap.getLast?.or before, after⟩ :: occurrencesFrom needle needle.getLast? after := by
  rw [occurrencesFrom, dif_neg hn]
  split
  · next hs => rw [h] at hs; cases hs
  · next g a hs =>
    rw [h] at hs
    cases hs
    rfl

theorem sites_of_none {needle t : Text} {before : Option Char} (h : splitFirst? needle t = none) :
    sites needle before t = [] := by
  rw [sites, occurrencesFrom_of_none h]
  rfl

theorem sites_of_some {needle t gap after : Text} {before : Option Char} (hn : needle ≠ [])
    (h : splitFirst? needle t = some (gap, after)) :
    sites needle before t = (gap.getLast?.or before, after) :: sites needle needle.getLast? after := by
  rw [sites, occurrencesFrom_of_some hn h]
  rfl

theorem splitFirst?_append_cons {needle : Text} {q : Char} (hn : needle ≠ []) (hq : q ∉ needle) (t r : Text) :
    splitFirst? needle (t ++ q :: r) =
      match splitFirst? needle t with
      | some s => some (s.1, s.2 ++ q :: r)
      | none => (splitFirst? needle r).map fun s => (t ++ q :: s.1, s.2) := by
  have hnil : stripStart? needle [] = none := by
    cases needle with
    | nil => exact absurd rfl hn
    | cons c needle => rfl
  induction t with
  | nil =>
    have hstrip := stripStart?_append_cons hq [] r
    rw [hnil, List.nil_append] at hstrip
    simp only [List.nil_append, splitFirst?, hstrip, hnil]
    rfl
  | cons c t ih =>
    have hstrip := stripStart?_append_cons hq (c :: t) r
    rw [List.cons_append] at hstrip
    rw [List.cons_append, splitFirst?, hstrip, splitFirst?]
    cases stripStart? needle (c :: t) with
    | some rest => rfl
    | none =>
      simp only [Option.map_none, ih]
      cases splitFirst? needle t with
      | some s => rfl
      | none =>
        simp only [Option.map_none, Option.map_map]
        rfl

/-- Induction over what follows the occurrences of a needle. -/
theorem search_induction {needle : Text} (hn : needle ≠ []) {motive : Text → Prop}
    (last : ∀ t, splitFirst? needle t = none → motive t)
    (more : ∀ t gap after, splitFirst? needle t = some (gap, after) → motive after → motive t) (t : Text) :
    motive t := by
  cases ht : splitFirst? needle t with
  | none => exact last t ht
  | some s =>
    obtain ⟨gap, after⟩ := s
    have hlen : after.length < t.length := by
      have hpos := List.length_pos_iff.2 hn
      rw [splitFirst?_eq_some ht, List.length_append, List.length_append]
      omega
    exact more t gap after ht (search_induction hn last more after)
termination_by t.length

/-- A character that the needle does not hold cuts the search in two. -/
theorem sites_append_cons {needle : Text} {q : Char} (hn : needle ≠ []) (hq : q ∉ needle) (before : Option Char)
    (t r : Text) :
    sites needle before (t ++ q :: r) =
      (sites needle before t).map (fun s => (s.1, s.2 ++ q :: r)) ++ sites needle (some q) r := by
  have hsplit := splitFirst?_append_cons hn hq t r
  cases ht : splitFirst? needle t with
  | some s =>
    obtain ⟨gap, after⟩ := s
    rw [ht] at hsplit
    have hlen : after.length < t.length := by
      have hs := congrArg List.length (splitFirst?_eq_some ht)
      have hpos := List.length_pos_iff.2 hn
      simp only [List.length_append] at hs
      omega
    rw [sites_of_some hn hsplit, sites_of_some hn ht, sites_append_cons hn hq _ after r]
    rfl
  | none =>
    rw [ht] at hsplit
    rw [sites_of_none ht]
    cases hr : splitFirst? needle r with
    | none =>
      rw [hr] at hsplit
      rw [sites_of_none hsplit, sites_of_none hr]
      rfl
    | some s =>
      rw [hr] at hsplit
      rw [sites_of_some hn hsplit, sites_of_some hn hr, List.getLast?_append, List.getLast?_cons]
      cases s.1.getLast? <;> rfl
termination_by t.length

/-- A needle with a character that the text lacks does not occur in it. -/
theorem splitFirst?_of_not_mem {needle t : Text} {c : Char} (hc : c ∈ needle) (ht : c ∉ t) :
    splitFirst? needle t = none := by
  rw [Option.eq_none_iff_forall_ne_some]
  rintro ⟨gap, after⟩ hs
  rw [splitFirst?_eq_some hs] at ht
  exact ht (by simp [hc])

theorem splitFirst?_append {needle : Text} (hn : needle ≠ []) (r : Text) :
    splitFirst? needle (needle ++ r) = some ([], r) := by
  have hstrip : stripStart? needle (needle ++ r) = some r := stripStart?_eq_some_iff.2 rfl
  obtain ⟨c, needle, rfl⟩ := List.exists_cons_of_ne_nil hn
  rw [List.cons_append] at hstrip ⊢
  rw [splitFirst?, hstrip]

/-- Blanks between two characters that the needle does not hold have no site, whatever their number. -/
theorem sites_append_blanks {needle : Text} {q : Char} (hq : q ∉ needle) (hb : ∃ c ∈ needle, c ≠ ' ') (n : Nat)
    (t r : Text) :
    sites needle none (t ++ q :: (List.replicate n ' ' ++ q :: r)) =
      (sites needle none t).map (fun s => (s.1, s.2 ++ q :: (List.replicate n ' ' ++ q :: r))) ++
        sites needle (some q) r := by
  obtain ⟨c, hc, hne⟩ := hb
  have hn : needle ≠ [] := List.ne_nil_of_mem hc
  have hblanks : splitFirst? needle (List.replicate n ' ') = none :=
    splitFirst?_of_not_mem hc fun h => hne (List.eq_of_mem_replicate h)
  rw [sites_append_cons hn hq, sites_append_cons hn hq, sites_of_none hblanks]
  rfl

/-- What is read at the sites of a line, up to the first character that the needle does not hold, depends on the number
of blanks between two of these in no way. -/
theorem filterMap_sites_blanks {α : Type} {needle : Text} {q : Char} (hq : q ∉ needle) (hb : ∃ c ∈ needle, c ≠ ' ')
    {f : Option Char × Text → Option α} (hf : ∀ b t r, f (b, t ++ q :: r) = f (b, t)) (n m : Nat) (t r : Text) :
    (sites needle none (t ++ q :: (List.replicate n ' ' ++ q :: r))).filterMap f =
      (sites needle none (t ++ q :: (List.replicate m ' ' ++ q :: r))).filterMap f := by
  have hside : ∀ rest, ((sites needle none t).map (fun s => (s.1, s.2 ++ q :: rest))).filterMap f =
      (sites needle none t).filterMap f := by
    intro rest
    rw [List.filterMap_map]
    congr 1
    funext s
    exact hf s.1 s.2 rest
  rw [sites_append_blanks hq hb, sites_append_blanks hq hb, List.filterMap_append, List.filterMap_append, hside, hside]

theorem keywordTails_eq (keyword line : Text) :
    keywordTails keyword line =
      (sites keyword none line).filterMap fun s => if s.1.any isWordChar then none else afterBlanks? s.2 := by
  rw [sites, List.filterMap_map]
  rfl

end ThriftModules.Text
