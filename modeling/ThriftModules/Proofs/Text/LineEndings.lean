import ThriftModules.Proofs.Text.Trim

/-!
# Line endings

* `crlf` : a text with a carriage return in front of each line feed (`crlf_append`, `crlf_injective`);
* `trim_crlf`, `takeWhile_crlf` : trimming and reading up to a line end do not depend on carriage returns.
-/

namespace ThriftModules.Text

set_option autoImplicit false

/-- A text with a carriage return in front of each line feed. -/
def crlf : Text → Text
  | [] => []
  | c :: t => if c = '\n' then '\r' :: '\n' :: crlf t else c :: crlf t

section
variable {c : Char} {t u : Text}

@[simp] theorem crlf_nil : crlf [] = [] := rfl

@[simp] theorem crlf_feed (t : Text) : crlf ('\n' :: t) = '\r' :: '\n' :: crlf t := by rw [crlf, if_pos rfl]

theorem crlf_cons (h : c ≠ '\n') (t : Text) : crlf (c :: t) = c :: crlf t := by rw [crlf, if_neg h]

theorem crlf_append (t u : Text) : crlf (t ++ u) = crlf t ++ crlf u := by
  induction t with
  | nil => rfl
  | cons c t ih =>
    rw [List.cons_append, crlf, crlf, ih]
    split <;> rfl

theorem head?_crlf (t : Text) : (crlf t).head? = if t.head? = some '\n' then some '\r' else t.head? := by
  cases t with
  | nil => rfl
  | cons c t =>
    by_cases h : c = '\n'
    · subst h
      rw [crlf_feed]
      rfl
    · rw [crlf_cons h, List.head?_cons, List.head?_cons, if_neg fun e => h (Option.some.inj e)]

theorem crlf_eq_nil : crlf t = [] ↔ t = [] := by
  cases t with
  | nil => simp
  | cons c t =>
    rw [crlf]
    split <;> simp

theorem crlf_injective : Function.Injective crlf := by
  have hfeed : ∀ {c : Char} {t u : Text}, c ≠ '\n' → crlf ('\n' :: t) ≠ crlf (c :: u) := by
    intro c t u hc h
    rw [crlf_feed, crlf_cons hc, List.cons.injEq] at h
    have hhead := congrArg List.head? h.2
    rw [List.head?_cons, head?_crlf] at hhead
    split at hhead
    · cases hhead
    · next hne => exact hne hhead.symm
  intro t u h
  induction t generalizing u with
  | nil => exact (crlf_eq_nil.1 h.symm).symm
  | cons c t ih =>
    cases u with
    | nil => exact absurd (crlf_eq_nil.1 h) (List.cons_ne_nil c t)
    | cons d u =>
      by_cases hc : c = '\n' <;> by_cases hd : d = '\n'
      · subst hc hd
        rw [crlf_feed, crlf_feed] at h
        rw [ih (List.cons.inj (List.cons.inj h).2).2]
      · exact absurd (hc ▸ h) (hfeed hd)
      · exact absurd (hd ▸ h).symm (hfeed hc)
      · rw [crlf_cons hc, crlf_cons hd] at h
        rw [(List.cons.inj h).1, ih (List.cons.inj h).2]

theorem isBlank_of_mem_crlf (h : ∀ c ∈ t, isBlank c = true) : ∀ c ∈ crlf t, isBlank c = true := by
  induction t with
  | nil => exact List.forall_mem_nil _
  | cons c t ih =>
    obtain ⟨hc, ht⟩ := List.forall_mem_cons.1 h
    rw [crlf]
    split
    · exact List.forall_mem_cons.2 ⟨by decide, List.forall_mem_cons.2 ⟨by decide, ih ht⟩⟩
    · exact List.forall_mem_cons.2 ⟨hc, ih ht⟩

theorem trim_crlf_of_trim (h : trim t = t) : trim (crlf t) = crlf t := by
  refine trim_eq_self (fun c hc => ?_) fun c hc => ?_
  · rw [head?_crlf] at hc
    have hhead : ∀ d, t.head? = some d → isBlank d = false := fun d hd => isBlank_of_trim_eq_self h (.inl hd)
    split at hc
    · next hfeed => exact absurd (hhead '\n' hfeed) (by decide)
    · exact hhead c hc
  · rcases List.eq_nil_or_concat t with rfl | ⟨r, d, rfl⟩
    · cases hc
    · have hd : isBlank d = false := isBlank_of_trim_eq_self h (.inr (by simp))
      have hne : d ≠ '\n' := by
        rintro rfl
        exact absurd hd (by decide)
      rw [List.concat_eq_append, crlf_append, crlf_cons hne, crlf_nil, List.getLast?_concat] at hc
      exact Option.some.inj hc ▸ hd

theorem trim_crlf (t : Text) : trim (crlf t) = crlf (trim t) := by
  obtain ⟨a, b, hab, ha, hb⟩ := exists_trim t
  have hcrlf : crlf t = crlf a ++ (crlf (trim t) ++ crlf b) := by rw [← crlf_append, ← crlf_append, ← hab]
  rw [hcrlf, trim_blank_append (isBlank_of_mem_crlf ha) (isBlank_of_mem_crlf hb), trim_crlf_of_trim (trim_trim t)]

theorem takeWhile_crlf {p : Char → Bool} (hfeed : p '\n' = false) (hreturn : p '\r' = false) (t : Text) :
    (crlf t).takeWhile p = t.takeWhile p := by
  induction t with
  | nil => rfl
  | cons c t ih =>
    by_cases hc : c = '\n'
    · subst hc
      rw [crlf_feed, List.takeWhile_cons_of_neg (by rw [hreturn]; decide),
        List.takeWhile_cons_of_neg (by rw [hfeed]; decide)]
    · rw [crlf_cons hc, List.takeWhile_cons, List.takeWhile_cons, ih]

end

end ThriftModules.Text
