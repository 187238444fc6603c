import Mathlib.Data.List.Chain
import ThriftModules.Idl.Namespace
import ThriftModules.Proofs.FileSystem.Names

/-!
# Dotted names

* `IsDotted` : words with dots between them;
* `IsDotted.isName`, `IsDotted.isName_append` : such a namespace, with or without a suffix, can be the name of a file;
* `isNamespaceChar_of_namespace?` : what a source declares is a text of word characters and dots;
* `isDotted_iff` : it is a dotted name unless a dot stands at an end or next to another.
-/

namespace ThriftModules

set_option autoImplicit false

def IsDotted (ns : Namespace) : Prop :=
  ∃ words : List Text, words ≠ [] ∧ (∀ word ∈ words, word ≠ [] ∧ ∀ c ∈ word, Text.isWordChar c = true) ∧
    ns = Text.join ['.'] words

variable {ns : Namespace}

theorem join_cons_cons (a b : Text) (words : List Text) :
    Text.join ['.'] (a :: b :: words) = a ++ '.' :: Text.join ['.'] (b :: words) := by
  simp [Text.join, List.intercalate, List.intersperse]

theorem IsDotted.exists_cons (h : IsDotted ns) : ∃ c rest, ns = c :: rest ∧ Text.isWordChar c = true := by
  obtain ⟨words, hne, hwords, rfl⟩ := h
  cases words with
  | nil => exact absurd rfl hne
  | cons word words =>
    obtain ⟨hword, hchars⟩ := hwords word List.mem_cons_self
    cases word with
    | nil => exact absurd rfl hword
    | cons c word =>
      refine ⟨c, ?_⟩
      cases words with
      | nil => exact ⟨word, by simp [Text.join, List.intercalate], hchars c List.mem_cons_self⟩
      | cons other words =>
        rw [join_cons_cons]
        exact ⟨_, rfl, hchars c List.mem_cons_self⟩

theorem IsDotted.isNamespaceChar (h : IsDotted ns) : ∀ c ∈ ns, Idl.isNamespaceChar c = true := by
  obtain ⟨words, -, hwords, rfl⟩ := h
  have hword : ∀ word ∈ words, ∀ c ∈ word, Idl.isNamespaceChar c = true := by
    intro word hw c hc
    rw [Idl.isNamespaceChar, (hwords word hw).2 c hc]
    rfl
  clear hwords
  induction words with
  | nil => simp [Text.join, List.intercalate]
  | cons word words ih =>
    intro c hc
    cases words with
    | nil =>
      rw [show Text.join ['.'] [word] = word by simp [Text.join, List.intercalate]] at hc
      exact hword word List.mem_cons_self c hc
    | cons other words =>
      rw [join_cons_cons] at hc
      rcases List.mem_append.1 hc with hc | hc
      · exact hword word List.mem_cons_self c hc
      · rcases List.mem_cons.1 hc with rfl | hc
        · rfl
        · exact ih (fun w hw => hword w (List.mem_cons_of_mem _ hw)) c hc

/-- With a suffix that has no slash, a dotted name can be the name of a file. -/
theorem IsDotted.isName_append (h : IsDotted ns) {suffix : Text} (hs : '/' ∉ suffix) : Path.IsName (ns ++ suffix) := by
  obtain ⟨c, rest, hc, hword⟩ := h.exists_cons
  have hdot : c ≠ '.' := by
    rintro rfl
    revert hword
    decide
  refine ⟨by simp [hc], ?_, ?_, ?_⟩
  · intro e
    rw [hc] at e
    exact hdot (List.cons.inj e).1
  · intro e
    rw [hc] at e
    exact hdot (List.cons.inj e).1
  · intro hm
    rcases List.mem_append.1 hm with hm | hm
    · have := h.isNamespaceChar '/' hm
      revert this
      decide
    · exact hs hm

theorem IsDotted.isName (h : IsDotted ns) : Path.IsName ns := by
  have hname : Path.IsName (ns ++ []) := h.isName_append List.not_mem_nil
  rwa [List.append_nil] at hname

/-! ## Texts of namespace characters -/

/-- No dot stands at an end or next to another dot. -/
structure HasInnerDots (ns : Namespace) : Prop where
  first : ns.head? ≠ some '.'
  last : ns.getLast? ≠ some '.'
  apart : ns.IsChain fun a b => a ≠ '.' ∨ b ≠ '.'

instance (ns : Namespace) : Decidable (HasInnerDots ns) :=
  decidable_of_iff (ns.head? ≠ some '.' ∧ ns.getLast? ≠ some '.' ∧ ns.IsChain fun a b => a ≠ '.' ∨ b ≠ '.')
    ⟨fun ⟨h₁, h₂, h₃⟩ => ⟨h₁, h₂, h₃⟩, fun h => ⟨h.first, h.last, h.apart⟩⟩

theorem hasInnerDots_of_notMem {word : Text} (h : '.' ∉ word) : HasInnerDots word := by
  refine ⟨fun e => h (List.mem_of_head? e), fun e => h (List.mem_of_getLast? e), ?_⟩
  induction word with
  | nil => exact .nil
  | cons c word ih =>
    rw [List.mem_cons, not_or] at h
    exact List.isChain_cons.2 ⟨fun d _ => .inl (Ne.symm h.1), ih h.2⟩

theorem hasInnerDots_append_dot {word rest : Text} (hw : word ≠ []) (hn : '.' ∉ word) (hr : rest ≠ []) :
    HasInnerDots (word ++ '.' :: rest) ↔ HasInnerDots rest := by
  have hword := hasInnerDots_of_notMem hn
  have hlast : (word ++ '.' :: rest).getLast? = rest.getLast? := by
    rw [List.getLast?_append_of_ne_nil _ (by simp), List.getLast?_cons_of_ne_nil hr]
  constructor
  · intro h
    have hchain := (List.isChain_cons.1 (List.isChain_append.1 h.apart).2.1)
    refine ⟨fun e => ?_, hlast ▸ h.last, hchain.2⟩
    simpa using hchain.1 '.' e
  · intro h
    refine ⟨?_, hlast ▸ h.last, List.isChain_append.2 ⟨hword.apart, List.isChain_cons.2 ⟨?_, h.apart⟩, ?_⟩⟩
    · rw [List.head?_append_of_ne_nil _ hw]
      exact hword.first
    · exact fun c hc => .inr fun e => h.first (e ▸ hc)
    · exact fun c hc _ _ => .inl fun e => hword.last (e ▸ hc)

theorem isWordChar_of_ne_dot {c : Char} (h : Idl.isNamespaceChar c = true) (hc : c ≠ '.') :
    Text.isWordChar c = true := by
  simpa [Idl.isNamespaceChar, hc] using h

/-- A text of namespace characters is a dotted name if no dot stands at an end or next to another. -/
theorem isDotted_iff (hne : ns ≠ []) (hns : ∀ c ∈ ns, Idl.isNamespaceChar c = true) :
    IsDotted ns ↔ HasInnerDots ns := by
  constructor
  · rintro ⟨words, hwords, hall, rfl⟩
    clear hne hns
    induction words with
    | nil => exact absurd rfl hwords
    | cons word words ih =>
      obtain ⟨hw, hchars⟩ := hall word List.mem_cons_self
      have hdot : '.' ∉ word := fun hm => absurd (hchars '.' hm) (by decide)
      cases words with
      | nil =>
        rw [show Text.join ['.'] [word] = word by simp [Text.join, List.intercalate]]
        exact hasInnerDots_of_notMem hdot
      | cons other words =>
        have hrest : ∀ w ∈ other :: words, w ≠ [] ∧ ∀ c ∈ w, Text.isWordChar c = true :=
          fun w hm => hall w (List.mem_cons_of_mem _ hm)
        obtain ⟨c, r, hcr, -⟩ := IsDotted.exists_cons ⟨other :: words, by simp, hrest, rfl⟩
        rw [join_cons_cons, hasInnerDots_append_dot hw hdot (by rw [hcr]; simp)]
        exact ih (by simp) hrest
  · intro h
    induction hlen : ns.length using Nat.strong_induction_on generalizing ns with
    | _ n ih =>
      subst hlen
      have hsplit := List.takeWhile_append_dropWhile (p := (· ≠ '.')) (l := ns)
      have hword : ∀ c ∈ ns.takeWhile (· ≠ '.'), Text.isWordChar c = true := by
        intro c hc
        have hne : c ≠ '.' := by simpa using List.mem_takeWhile_imp hc
        exact isWordChar_of_ne_dot (hns c ((List.takeWhile_prefix _).subset hc)) hne
      have hnot : '.' ∉ ns.takeWhile (· ≠ '.') := fun hm => absurd (hword '.' hm) (by decide)
      have hnonempty : ns.takeWhile (· ≠ '.') ≠ [] := by
        cases ns with
        | nil => exact absurd rfl hne
        | cons c rest =>
          have hc : c ≠ '.' := fun e => h.first (by rw [e]; rfl)
          simp [hc]
      generalize ns.takeWhile (· ≠ '.') = word at hsplit hword hnot hnonempty
      cases hd : ns.dropWhile (· ≠ '.') with
      | nil =>
        rw [hd, List.append_nil] at hsplit
        subst hsplit
        exact ⟨[word], by simp, by simpa using ⟨hnonempty, hword⟩, by simp [Text.join, List.intercalate]⟩
      | cons c rest =>
        have hc : c = '.' := by
          have := List.head?_dropWhile_not (p := (· ≠ '.')) ns
          rw [hd] at this
          simpa using this
        rw [hd, hc] at hsplit
        subst hsplit
        have hrest : rest ≠ [] := by
          rintro rfl
          exact h.last (by simp)
        rw [hasInnerDots_append_dot hnonempty hnot hrest] at h
        obtain ⟨words, hwords, hall, rfl⟩ :=
          ih rest.length (by simp; omega) hrest (fun c hc => hns c (by simp [hc])) h rfl
        cases words with
        | nil => exact absurd rfl hwords
        | cons other words =>
          refine ⟨word :: other :: words, by simp, fun w hw => ?_, (join_cons_cons word other words).symm⟩
          rcases List.mem_cons.1 hw with rfl | hw
          · exact ⟨hnonempty, hword⟩
          · exact hall w hw

theorem isName_of_isNamespaceChar (hne : ns ≠ []) (hns : ∀ c ∈ ns, Idl.isNamespaceChar c = true) (hdot : ns ≠ ['.'])
    (hdotDot : ns ≠ ['.', '.']) : Path.IsName ns :=
  ⟨hne, hdot, hdotDot, fun hm => absurd (hns '/' hm) (by decide)⟩

/-- A declared namespace is a text of namespace characters, whatever the source. -/
theorem isNamespaceChar_of_namespace? {s : Idl.Source} (h : s.namespace? = .ok ns) :
    ns ≠ [] ∧ ∀ c ∈ ns, Idl.isNamespaceChar c = true := by
  rw [Idl.Source.namespace?_eq_ok_iff] at h
  have hmem : ns ∈ s.namespaces := NameSet.mem_def.2 (by rw [h]; exact List.mem_singleton_self ns)
  obtain ⟨line, -, hline⟩ := List.mem_flatMap.1 (NameSet.mem_ofList.1 hmem)
  obtain ⟨hvalue, hne⟩ := List.mem_filter.1 hline
  obtain ⟨tail, -, rfl⟩ := List.mem_map.1 hvalue
  exact ⟨by simpa using hne, fun c hc => List.mem_takeWhile_imp hc⟩

end ThriftModules
