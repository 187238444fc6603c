import ThriftModules.Module.Qualifier
import ThriftModules.Proofs.Text.Sites
import ThriftModules.Proofs.Text.Trim

/-!
# Removal at the starts of paths

* `removeAt len t` : one pass over `t` that removes `len` characters at each position that starts a path;
* `pathStarts` : these positions, each as the character in front and the text from there on;
* `IsRemoval` : what is removed lies inside the path and depends on the path alone;
* `removeFrom_run` : a pass works on each maximal path of a line on its own;
* `removeFrom_removeFrom` : two passes are one pass;
* `removeFrom_eq_iff` : two passes give the same line exactly if they remove the same at every path start;
* `stripQualifier_eq` : the removal of a qualifier is such a pass.
-/

namespace ThriftModules.Module

set_option autoImplicit false

/-! ## One pass -/

def isPathChar (c : Char) : Bool := Text.isIdentChar c || c == '.'

/-- The text without `len` characters at each position that starts a path, where `skip` characters at its front are
removed with what stands before it. -/
def removeFrom (len : Option Char → Text → Nat) : Option Char → Nat → Text → Text
  | _, _, [] => []
  | _, skip + 1, c :: r => removeFrom len (some c) skip r
  | before, 0, c :: r =>
    match if startsPath before then len before (c :: r) else 0 with
    | 0 => c :: removeFrom len (some c) 0 r
    | n + 1 => removeFrom len (some c) n r

def removeAt (len : Option Char → Text → Nat) (line : Text) : Text := removeFrom len none 0 line

/-- The positions that start a path: what stands in front of each, and the text from there on. -/
def pathStarts : Option Char → Text → List (Option Char × Text)
  | _, [] => []
  | before, c :: r =>
    if startsPath before then (before, c :: r) :: pathStarts (some c) r else pathStarts (some c) r

/-- What is removed is part of the path, and does not depend on what follows the path. -/
structure IsRemoval (len : Option Char → Text → Nat) : Prop where
  le : ∀ before t, len before t ≤ t.length
  inPath : ∀ before t c r, isPathChar c = false → len before (t ++ c :: r) = len before t

def andThen (len len' : Option Char → Text → Nat) (before : Option Char) (t : Text) : Nat :=
  len before t + len' before (t.drop (len before t))

/-! ## Path by path -/

theorem startsPath_some (c : Char) : startsPath (some c) = !isPathChar c := by
  simp [startsPath, isPathChar, bne]

theorem isPathChar_of_isBlank {c : Char} (h : Text.isBlank c = true) : isPathChar c = false := by
  have hdot : c ≠ '.' := by
    rintro rfl
    revert h
    decide
  rw [isPathChar, Text.not_isIdentChar_of_isBlank h, Bool.false_or, beq_eq_false_iff_ne]
  exact hdot

/-- Nothing starts behind a text of path characters that stands inside a path. -/
theorem startsPath_getLast?_or {u : Text} (hu : ∀ c ∈ u, isPathChar c = true) {before : Option Char}
    (hb : startsPath before = false) : startsPath (u.getLast?.or before) = false := by
  cases hl : u.getLast? with
  | none => exact hb
  | some c =>
    rw [Option.some_or, startsPath_some, hu c (List.mem_of_getLast? hl)]
    rfl

section
variable {len len' : Option Char → Text → Nat}

theorem removeFrom_skip (w t : Text) (before : Option Char) :
    removeFrom len before w.length (w ++ t) = removeFrom len (w.getLast?.or before) 0 t := by
  induction w generalizing before with
  | nil => rfl
  | cons c w ih =>
    rw [List.cons_append, List.length_cons, removeFrom, ih, Text.getLast?_cons_or]

theorem removeFrom_path {u : Text} (hu : ∀ c ∈ u, isPathChar c = true) {before : Option Char}
    (hb : startsPath before = false) (t : Text) :
    removeFrom len before 0 (u ++ t) = u ++ removeFrom len (u.getLast?.or before) 0 t := by
  induction u generalizing before with
  | nil => rfl
  | cons c u ih =>
    have hc : startsPath (some c) = false := by rw [startsPath_some, hu c (by simp)]; rfl
    rw [List.cons_append, removeFrom, hb, ih (fun d hd => hu d (by simp [hd])) hc, Text.getLast?_cons_or]
    rfl

theorem removeFrom_cons (h : IsRemoval len) {c : Char} (hc : isPathChar c = false) (before : Option Char) (r : Text) :
    removeFrom len before 0 (c :: r) = c :: removeFrom len (some c) 0 r := by
  have hzero : (if startsPath before then len before (c :: r) else 0) = 0 := by
    have hlocal := h.inPath before [] c r hc
    have hle := h.le before []
    rw [List.nil_append] at hlocal
    rw [List.length_nil, Nat.le_zero] at hle
    rw [hlocal, hle, ite_self]
  rw [removeFrom, hzero]

theorem removeFrom_run (h : IsRemoval len) {u : Text} (hu : ∀ c ∈ u, isPathChar c = true) {before : Option Char}
    (hb : startsPath before = true) {t : Text} (ht : t = [] ∨ ∃ c r, t = c :: r ∧ isPathChar c = false) :
    removeFrom len before 0 (u ++ t) = u.drop (len before u) ++ removeFrom len (u.getLast?.or before) 0 t := by
  have hlocal : len before (u ++ t) = len before u := by
    rcases ht with rfl | ⟨c, r, rfl, hc⟩
    · rw [List.append_nil]
    · exact h.inPath before u c r hc
  cases u with
  | nil => simp
  | cons c u =>
    have hu' : ∀ d ∈ u, isPathChar d = true := fun d hd => hu d (by simp [hd])
    have hc : startsPath (some c) = false := by rw [startsPath_some, hu c (by simp)]; rfl
    rw [List.cons_append] at hlocal ⊢
    rw [removeFrom, hb, if_pos rfl, hlocal]
    have hle := h.le before (c :: u)
    cases hn : len before (c :: u) with
    | zero =>
      rw [List.drop_zero, Text.getLast?_cons_or]
      exact congrArg (c :: ·) (removeFrom_path hu' hc t)
    | succ n =>
      rw [hn, List.length_cons, Nat.add_le_add_iff_right] at hle
      have htake : (u.take n).length = n := List.length_take_of_le hle
      have hskip : removeFrom len (some c) (u.take n).length (u.take n ++ (u.drop n ++ t)) =
          removeFrom len ((u.take n).getLast?.or (some c)) 0 (u.drop n ++ t) := removeFrom_skip _ _ _
      rw [htake, ← List.append_assoc, List.take_append_drop] at hskip
      have hfront : startsPath ((u.take n).getLast?.or (some c)) = false :=
        startsPath_getLast?_or (fun d hd => hu' d (List.mem_of_mem_take hd)) hc
      have hlast : (u.drop n).getLast?.or ((u.take n).getLast?.or (some c)) = (c :: u).getLast?.or before := by
        rw [← Option.or_assoc, ← List.getLast?_append, List.take_append_drop, Text.getLast?_cons_or]
      refine hskip.trans ?_
      rw [removeFrom_path (fun d hd => hu' d (List.mem_of_mem_drop hd)) hfront, hlast]
      rfl

theorem removeFrom_run_last (h : IsRemoval len) {u : Text} (hu : ∀ c ∈ u, isPathChar c = true) {before : Option Char}
    (hb : startsPath before = true) : removeFrom len before 0 u = u.drop (len before u) := by
  have hrun := removeFrom_run h hu hb (t := []) (Or.inl rfl)
  simpa [removeFrom] using hrun

theorem removeFrom_run_cons (h : IsRemoval len) {u : Text} (hu : ∀ c ∈ u, isPathChar c = true) {before : Option Char}
    (hb : startsPath before = true) {c : Char} (hc : isPathChar c = false) (r : Text) :
    removeFrom len before 0 (u ++ c :: r) = u.drop (len before u) ++ c :: removeFrom len (some c) 0 r := by
  rw [removeFrom_run h hu hb (Or.inr ⟨c, r, rfl, hc⟩), removeFrom_cons h hc]

/-- Induction over the maximal paths of a text. -/
theorem path_induction {motive : Option Char → Text → Prop}
    (last : ∀ before u, startsPath before = true → (∀ c ∈ u, isPathChar c = true) → motive before u)
    (more : ∀ before u c r, startsPath before = true → (∀ c ∈ u, isPathChar c = true) → isPathChar c = false →
      motive (some c) r → motive before (u ++ c :: r))
    (before : Option Char) (t : Text) (hb : startsPath before = true) : motive before t := by
  have hu : ∀ c ∈ t.takeWhile isPathChar, isPathChar c = true := List.all_eq_true.1 List.all_takeWhile
  have hsplit := List.takeWhile_append_dropWhile (p := isPathChar) (l := t)
  have hhead := List.head?_dropWhile_not isPathChar t
  cases hd : t.dropWhile isPathChar with
  | nil =>
    rw [hd, List.append_nil] at hsplit
    exact last before t hb (hsplit ▸ hu)
  | cons c r =>
    rw [hd] at hsplit hhead
    have hc : isPathChar c = false := by simpa using hhead
    have hlen : r.length < t.length := by
      rw [← hsplit, List.length_append, List.length_cons]
      omega
    have hnext := path_induction last more (some c) r (by rw [startsPath_some, hc]; rfl)
    rw [← hsplit]
    exact more before _ c r hb hu hc hnext
termination_by t.length

/-! ## Two passes -/

theorem IsRemoval.andThen (h : IsRemoval len) (h' : IsRemoval len') : IsRemoval (andThen len len') where
  le before t := by
    have h1 := h.le before t
    have h2 := h'.le before (t.drop (len before t))
    rw [List.length_drop] at h2
    rw [Module.andThen]
    omega
  inPath before t c r hc := by
    rw [Module.andThen, Module.andThen, h.inPath before t c r hc, List.drop_append_of_le_length (h.le before t),
      h'.inPath before _ c r hc]

/-- Two passes are one, which removes what both remove. -/
theorem removeFrom_removeFrom (h : IsRemoval len) (h' : IsRemoval len') {before : Option Char}
    (hb : startsPath before = true) (t : Text) :
    removeFrom len' before 0 (removeFrom len before 0 t) = removeFrom (andThen len len') before 0 t := by
  have hboth := h.andThen h'
  refine path_induction (motive := fun before t => removeFrom len' before 0 (removeFrom len before 0 t) =
    removeFrom (Module.andThen len len') before 0 t) ?_ ?_ before t hb
  · intro before u hb hu
    have hrest : ∀ c ∈ u.drop (len before u), isPathChar c = true := fun c hc => hu c (List.mem_of_mem_drop hc)
    rw [removeFrom_run_last h hu hb, removeFrom_run_last h' hrest hb, removeFrom_run_last hboth hu hb, List.drop_drop]
    rfl
  · intro before u c r hb hu hc ih
    have hrest : ∀ c ∈ u.drop (len before u), isPathChar c = true := fun c hc => hu c (List.mem_of_mem_drop hc)
    rw [removeFrom_run_cons h hu hb hc, removeFrom_run_cons h' hrest hb hc, removeFrom_run_cons hboth hu hb hc, ih,
      List.drop_drop]
    rfl

/-! ## When two passes agree -/

theorem pathStarts_path {u : Text} (hu : ∀ c ∈ u, isPathChar c = true) {before : Option Char}
    (hb : startsPath before = false) (t : Text) : pathStarts before (u ++ t) = pathStarts (u.getLast?.or before) t := by
  induction u generalizing before with
  | nil => rfl
  | cons c u ih =>
    have hc : startsPath (some c) = false := by rw [startsPath_some, hu c (by simp)]; rfl
    rw [List.cons_append, pathStarts, if_neg (by simp [hb]), ih (fun d hd => hu d (by simp [hd])) hc,
      Text.getLast?_cons_or]

theorem append_cons_inj_of_path {u v s t : Text} {c : Char} (hu : ∀ c ∈ u, isPathChar c = true)
    (hv : ∀ c ∈ v, isPathChar c = true) (hc : isPathChar c = false) :
    u ++ c :: s = v ++ c :: t ↔ u = v ∧ s = t := by
  constructor
  · intro h
    have hwhile : ∀ (w r : Text), (∀ c ∈ w, isPathChar c = true) → (w ++ c :: r).takeWhile isPathChar = w := by
      intro w r hw
      rw [List.takeWhile_append_of_pos hw, List.takeWhile_cons_of_neg (by simp [hc]), List.append_nil]
    have huv : u = v := by rw [← hwhile u s hu, h, hwhile v t hv]
    subst huv
    exact ⟨rfl, (List.cons.inj (List.append_cancel_left h)).2⟩
  · rintro ⟨rfl, rfl⟩
    rfl

theorem drop_inj_of_le {u : Text} {n m : Nat} (hn : n ≤ u.length) (hm : m ≤ u.length) :
    u.drop n = u.drop m ↔ n = m := by
  constructor
  · intro h
    have hlen := congrArg List.length h
    rw [List.length_drop, List.length_drop] at hlen
    omega
  · rintro rfl
    rfl

/-- Two passes give the same text exactly if they remove the same at every path start. -/
theorem removeFrom_eq_iff (h : IsRemoval len) (h' : IsRemoval len') {before : Option Char}
    (hb : startsPath before = true) (t : Text) :
    removeFrom len before 0 t = removeFrom len' before 0 t ↔
      ∀ p ∈ pathStarts before t, len p.1 p.2 = len' p.1 p.2 := by
  have hnil : ∀ b, len b [] = len' b [] := fun b => by
    have h1 := h.le b []
    have h2 := h'.le b []
    simp only [List.length_nil, Nat.le_zero] at h1 h2
    rw [h1, h2]
  refine path_induction (motive := fun before t => removeFrom len before 0 t = removeFrom len' before 0 t ↔
    ∀ p ∈ pathStarts before t, len p.1 p.2 = len' p.1 p.2) ?_ ?_ before t hb
  · intro before u hb hu
    rw [removeFrom_run_last h hu hb, removeFrom_run_last h' hu hb, drop_inj_of_le (h.le before u) (h'.le before u)]
    cases u with
    | nil => simp [pathStarts, hnil]
    | cons c u =>
      have hc : startsPath (some c) = false := by rw [startsPath_some, hu c (by simp)]; rfl
      have hinner := pathStarts_path (u := u) (fun d hd => hu d (by simp [hd])) hc []
      rw [List.append_nil] at hinner
      rw [pathStarts, if_pos hb, hinner]
      simp [pathStarts]
  · intro before u c r hb hu hc ih
    have hlen := h.inPath before u c r hc
    have hlen' := h'.inPath before u c r hc
    have hdrop : ∀ n, ∀ d ∈ u.drop n, isPathChar d = true := fun _ d hd => hu d (List.mem_of_mem_drop hd)
    rw [removeFrom_run_cons h hu hb hc, removeFrom_run_cons h' hu hb hc, append_cons_inj_of_path (hdrop _) (hdrop _) hc,
      drop_inj_of_le (h.le before u) (h'.le before u), ih]
    cases u with
    | nil =>
      rw [List.nil_append, pathStarts, if_pos hb, List.forall_mem_cons]
      rw [List.nil_append] at hlen hlen'
      rw [hlen, hlen']
    | cons d u =>
      have hd : startsPath (some d) = false := by rw [startsPath_some, hu d (by simp)]; rfl
      have hend : startsPath (u.getLast?.or (some d)) = false :=
        startsPath_getLast?_or (fun x hx => hu x (by simp [hx])) hd
      rw [List.cons_append] at hlen hlen' ⊢
      rw [pathStarts, if_pos hb, List.forall_mem_cons, hlen, hlen',
        pathStarts_path (fun x hx => hu x (by simp [hx])) hd, pathStarts, if_neg (by rw [hend]; decide)]

end

/-! ## The removal of a qualifier -/

/-- What the removal of `qualifier` takes at the start of a path. -/
def qualifierLength (qualifier : Text) (quoted : Quoted) (before : Option Char) (t : Text) : Nat :=
  if Text.startsWith t (qualifier ++ ['.']) && !(quoted == .kept && before.any Text.isQuote) then qualifier.length + 1
  else 0

/-- What the occurrences of `needle` leave of a text in which `before` stands in front. -/
def leftFrom (quoted : Quoted) (needle : Text) (before : Option Char) (t : Text) : Text :=
  let found := Text.occurrencesFrom needle before t
  found.flatMap (fun o => o.gap ++ if quoted.removes o then [] else needle) ++
    match found.getLast? with
    | some o => o.after
    | none => t

section
variable {needle : Text} {quoted : Quoted}

theorem leftFrom_of_none {before : Option Char} {t : Text} (h : Text.splitFirst? needle t = none) :
    leftFrom quoted needle before t = t := by
  rw [leftFrom, Text.occurrencesFrom_of_none h]
  rfl

theorem leftFrom_of_some {before : Option Char} {t gap after : Text} (hn : needle ≠ [])
    (h : Text.splitFirst? needle t = some (gap, after)) :
    leftFrom quoted needle before t =
      gap ++ ((if quoted.removes ⟨gap, gap.getLast?.or before, after⟩ then [] else needle) ++
        leftFrom quoted needle needle.getLast? after) := by
  have hlast : ∀ (o : Text.Occurrence) (os : List Text.Occurrence), (match (o :: os).getLast? with
      | some o => o.after
      | none => t) = match os.getLast? with
      | some o => o.after
      | none => o.after := by
    intro o os
    rw [List.getLast?_cons]
    cases os.getLast? <;> rfl
  rw [leftFrom, Text.occurrencesFrom_of_some hn h, leftFrom, hlast, List.flatMap_cons]
  simp only [List.append_assoc]

theorem leftFrom_cons {c : Char} {r : Text} {before : Option Char} (hn : needle ≠ [])
    (h : Text.stripStart? needle (c :: r) = none) :
    leftFrom quoted needle before (c :: r) = c :: leftFrom quoted needle (some c) r := by
  have hsplit : Text.splitFirst? needle (c :: r) = (Text.splitFirst? needle r).map fun s => (c :: s.1, s.2) := by
    rw [Text.splitFirst?, h]
  cases hr : Text.splitFirst? needle r with
  | none =>
    rw [hr] at hsplit
    rw [leftFrom_of_none hsplit, leftFrom_of_none hr]
  | some s =>
    rw [hr] at hsplit
    rw [leftFrom_of_some hn hsplit, leftFrom_of_some hn hr, Text.getLast?_cons_or]
    rfl

end

section
variable {qualifier : Text} {quoted : Quoted}

theorem isPathChar_of_mem_needle (hq : ∀ c ∈ qualifier, isPathChar c = true) :
    ∀ c ∈ qualifier ++ ['.'], isPathChar c = true := by
  intro c hc
  rcases List.mem_append.1 hc with hc | hc
  · exact hq c hc
  · rw [List.mem_singleton.1 hc]
    decide

theorem startsWith_qualifier (hq : ∀ c ∈ qualifier, isPathChar c = true) {t r : Text} {c : Char}
    (hc : isPathChar c = false) :
    Text.startsWith (t ++ c :: r) (qualifier ++ ['.']) = Text.startsWith t (qualifier ++ ['.']) := by
  refine Text.startsWith_append_cons (fun h => ?_) t r
  rw [isPathChar_of_mem_needle hq c h] at hc
  cases hc

theorem isRemoval_qualifierLength (hq : ∀ c ∈ qualifier, isPathChar c = true) :
    IsRemoval (qualifierLength qualifier quoted) where
  le before t := by
    rw [qualifierLength]
    split
    · next h =>
      have hle := (Text.startsWith_iff.1 (Bool.and_eq_true_iff.1 h).1).length_le
      rwa [List.length_append, List.length_singleton] at hle
    · exact Nat.zero_le _
  inPath before t c r hc := by
    rw [qualifierLength, startsWith_qualifier hq hc]
    rfl

theorem leftFrom_eq_removeFrom (hq : ∀ c ∈ qualifier, isPathChar c = true) (before : Option Char) (t : Text) :
    leftFrom quoted (qualifier ++ ['.']) before t = removeFrom (qualifierLength qualifier quoted) before 0 t := by
  have hn : qualifier ++ ['.'] ≠ [] := by simp
  cases t with
  | nil =>
    have hnone : Text.splitFirst? (qualifier ++ ['.']) [] = none := by cases qualifier <;> rfl
    rw [leftFrom_of_none hnone, removeFrom]
  | cons c r =>
    cases hs : Text.stripStart? (qualifier ++ ['.']) (c :: r) with
    | none =>
      have hzero : (if startsPath before then qualifierLength qualifier quoted before (c :: r) else 0) = 0 := by
        simp [qualifierLength, Text.startsWith, hs]
      rw [leftFrom_cons hn hs, leftFrom_eq_removeFrom hq (some c) r, removeFrom, hzero]
    | some after =>
      have hfirst : Text.splitFirst? (qualifier ++ ['.']) (c :: r) = some ([], after) := by
        rw [Text.splitFirst?, hs]
      have hsplit := Text.stripStart?_eq_some_iff.1 hs
      have hlen : after.length < r.length + 1 := by
        rw [← List.length_cons, hsplit, List.length_append, List.length_append, List.length_singleton]
        omega
      have hrec := leftFrom_eq_removeFrom hq (qualifier ++ ['.']).getLast? after
      rw [leftFrom_of_some hn hfirst, hrec, List.nil_append]
      obtain ⟨d, needle, hneedle⟩ := List.exists_cons_of_ne_nil hn
      have hpath : ∀ x ∈ d :: needle, isPathChar x = true := hneedle ▸ isPathChar_of_mem_needle hq
      have hd : startsPath (some d) = false := by rw [startsPath_some, hpath d (by simp)]; rfl
      have hlength : qualifier.length + 1 = needle.length + 1 := by
        have := congrArg List.length hneedle
        simpa using this
      have hlast : (d :: needle).getLast? = needle.getLast?.or (some d) := by
        rw [← Text.getLast?_cons_or d needle none, Option.or_none]
      rw [hneedle, List.cons_append] at hsplit
      obtain ⟨rfl, rfl⟩ := List.cons.inj hsplit
      have hremoves : quoted.removes ⟨[], [].getLast?.or before, after⟩ =
          (startsPath before && !(quoted == .kept && before.any Text.isQuote)) := rfl
      have hn : (if startsPath before then qualifierLength qualifier quoted before (c :: (needle ++ after)) else 0) =
          if quoted.removes ⟨[], [].getLast?.or before, after⟩ then needle.length + 1 else 0 := by
        rw [hremoves, qualifierLength, Text.startsWith, hs, ← hlength]
        cases startsPath before <;> rfl
      rw [removeFrom, hn, hneedle, hlast]
      split
      · exact (removeFrom_skip needle after (some c)).symm
      · rw [removeFrom_path (fun x hx => hpath x (by simp [hx])) hd]
        rfl
termination_by t.length

/-- The removal of a qualifier is one pass. -/
theorem stripQualifier_eq (hq : ∀ c ∈ qualifier, isPathChar c = true) (line : Text) :
    stripQualifier qualifier quoted line = removeAt (qualifierLength qualifier quoted) line :=
  leftFrom_eq_removeFrom hq none line

end

end ThriftModules.Module
