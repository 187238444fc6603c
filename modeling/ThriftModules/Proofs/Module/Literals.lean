import ThriftModules.Proofs.Idl.Literals
import ThriftModules.Proofs.Module.Headers
import ThriftModules.Proofs.Text.Found

/-!
# Literals in a declaration line

* `leftFrom_append_cons` : a character that a qualifier does not hold cuts its removal in two;
* `NoneReaches` : no block comment that opens in a text closes in what follows it;
* `stripBlockComments_append_cons` : behind such a text the removal of comments starts anew at a quote;
* `leftOf` : what the passes leave of a part of a line;
* `unqualify_withLiteral` : the passes leave of a line what they leave of a literal and of what stands around it;
* `includedPasses_eq_self_iff` : they leave a literal as it is exactly if each included qualifier in it stands behind a
  quote or inside a path;
* `literal_unchanged_iff` : what this says about the lines of a declaration module.

No pass knows where a literal starts. A qualifier is kept right behind a quote and nowhere else.
-/

namespace ThriftModules.Module

set_option autoImplicit false

open Idl (withLiteral isLiteralQuote isLiteralQuote_cases)

/-! ## Qualifiers on both sides of a character -/

section
variable {quoted : Quoted} {needle t : Text} {q : Char}

/-- A character that the needle does not hold cuts its removal in two. -/
theorem leftFrom_append_cons (hn : needle ≠ []) (hq : q ∉ needle) (before : Option Char) (t r : Text) :
    leftFrom quoted needle before (t ++ q :: r) =
      leftFrom quoted needle before t ++ q :: leftFrom quoted needle (some q) r := by
  induction t using Text.search_induction hn generalizing before with
  | more t gap after ht ih =>
    have hsplit := Text.splitFirst?_append_cons hn hq t r
    rw [ht] at hsplit
    have hremoves : quoted.removes ⟨gap, gap.getLast?.or before, after ++ q :: r⟩ =
        quoted.removes ⟨gap, gap.getLast?.or before, after⟩ := rfl
    rw [leftFrom_of_some hn hsplit, leftFrom_of_some hn ht, ih, hremoves]
    simp only [List.append_assoc]
  | last t ht =>
    have hsplit := Text.splitFirst?_append_cons hn hq t r
    rw [ht] at hsplit
    rw [leftFrom_of_none ht]
    cases hr : Text.splitFirst? needle r with
    | none =>
      rw [hr] at hsplit
      rw [leftFrom_of_none hsplit, leftFrom_of_none hr]
    | some s =>
      rw [hr] at hsplit
      have hlast : (t ++ q :: s.1).getLast?.or before = s.1.getLast?.or (some q) := by
        rw [List.getLast?_append, List.getLast?_cons]
        cases s.1.getLast? <;> rfl
      rw [leftFrom_of_some hn hsplit, leftFrom_of_some hn hr, hlast, List.append_assoc, List.cons_append]
      rfl

theorem removes_removed (o : Text.Occurrence) : Quoted.removed.removes o = startsPath o.before := Bool.and_true _

/-- What is removed behind a quote too depends on the character in front only by whether a path starts behind it. -/
theorem leftFrom_removed_congr (hn : needle ≠ []) {before before' : Option Char}
    (h : startsPath before = startsPath before') (t : Text) :
    leftFrom .removed needle before t = leftFrom .removed needle before' t := by
  cases ht : Text.splitFirst? needle t with
  | none => rw [leftFrom_of_none ht, leftFrom_of_none ht]
  | some s =>
    obtain ⟨gap, after⟩ := s
    have hremoves : Quoted.removed.removes ⟨gap, gap.getLast?.or before, after⟩ =
        Quoted.removed.removes ⟨gap, gap.getLast?.or before', after⟩ := by
      rw [removes_removed, removes_removed]
      cases gap.getLast? with
      | none => exact h
      | some c => rfl
    rw [leftFrom_of_some hn ht, leftFrom_of_some hn ht, hremoves]

theorem leftFrom_sublist (hn : needle ≠ []) (before : Option Char) (t : Text) :
    (leftFrom quoted needle before t).Sublist t := by
  have hkept : ∀ b : Bool, (if b then [] else needle).Sublist needle := by
    rintro (_ | _)
    · exact List.Sublist.refl needle
    · exact List.nil_sublist needle
  induction t using Text.search_induction hn generalizing before with
  | last t ht => rw [leftFrom_of_none ht]
  | more t gap after ht ih =>
    rw [leftFrom_of_some hn ht, Text.splitFirst?_eq_some ht, List.append_assoc]
    exact (List.Sublist.refl gap).append ((hkept _).append (ih _))

end

/-! ## Comments on both sides of a character -/

/-- No block comment that opens in `t` closes in it or in `r`. -/
def OpensNone (t r : Text) : Prop := ∀ u v, t = u ++ ("/*".toList ++ v) → ¬"*/".toList <:+: v ++ r

/-- No block comment that opens in the text reaches into `r` behind it: each closes in the text, or does not close. -/
inductive NoneReaches (r : Text) : Text → Prop where
  | none {t : Text} (opens : OpensNone t r) : NoneReaches r t
  | comment {gap body rest : Text} (opens : ¬"/*".toList <:+: gap) (closes : ¬"*/".toList <:+: body)
    (behind : NoneReaches r rest) : NoneReaches r (gap ++ ("/*".toList ++ (body ++ ("*/".toList ++ rest))))

section
variable {t r gap opened body rest line : Text} {q : Char}

theorem notMem_marker (hq : isLiteralQuote q = true) : q ∉ "/*".toList := by
  rcases isLiteralQuote_cases hq with rfl | rfl <;> decide

theorem stripBlockComments_of_closed (h : Text.splitFirst? "/*".toList line = some (gap, opened))
    (h' : Text.splitFirst? "*/".toList opened = some (body, rest)) :
    stripBlockComments line = gap ++ stripBlockComments rest := by
  rw [stripBlockComments]
  split
  · next hs =>
    rw [h] at hs
    cases hs
  · next gap' opened' hs =>
    rw [h] at hs
    cases hs
    split
    · next hs =>
      rw [h'] at hs
      cases hs
    · next body' rest' hs =>
      rw [h'] at hs
      cases hs
      rfl

theorem stripBlockComments_of_open (h : Text.splitFirst? "/*".toList line = some (gap, opened))
    (h' : Text.splitFirst? "*/".toList opened = none) : stripBlockComments line = line := by
  rw [stripBlockComments]
  split
  · rfl
  · next gap' opened' hs =>
    rw [h] at hs
    cases hs
    split
    · rfl
    · next body' rest' hs =>
      rw [h'] at hs
      cases hs

theorem stripBlockComments_comment (opens : ¬"/*".toList <:+: gap) (closes : ¬"*/".toList <:+: body) (rest : Text) :
    stripBlockComments (gap ++ ("/*".toList ++ (body ++ ("*/".toList ++ rest)))) = gap ++ stripBlockComments rest :=
  stripBlockComments_of_closed
    (Text.splitFirst?_append_first (by decide) (by decide) opens _)
    (Text.splitFirst?_append_first (by decide) (by decide) closes _)

theorem stripBlockComments_of_not_closes (h : ¬"*/".toList <:+: t) : stripBlockComments t = t := by
  cases ht : Text.splitFirst? "/*".toList t with
  | none => exact stripBlockComments_of_none ht
  | some s =>
    obtain ⟨gap, opened⟩ := s
    have hopened : opened <:+: t := by
      rw [Text.splitFirst?_eq_some ht]
      exact (List.suffix_append _ _).isInfix
    exact stripBlockComments_of_open ht (Text.splitFirst?_eq_none_iff.2 fun hcloses => h (hcloses.trans hopened))

theorem stripBlockComments_of_opensNone (h : OpensNone t r) : stripBlockComments t = t := by
  cases ht : Text.splitFirst? "/*".toList t with
  | none => exact stripBlockComments_of_none ht
  | some s =>
    obtain ⟨gap, opened⟩ := s
    have hcloses := h gap opened (by rw [Text.splitFirst?_eq_some ht, List.append_assoc])
    exact stripBlockComments_of_open ht (Text.splitFirst?_eq_none_iff.2 fun hwithin =>
      hcloses (hwithin.trans (List.prefix_append opened r).isInfix))

/-- Behind a text that opens no comment the removal of comments starts anew at a quote. -/
theorem stripBlockComments_append_cons_of_opensNone (h : OpensNone t (q :: r)) (hq : isLiteralQuote q = true) :
    stripBlockComments (t ++ q :: r) = t ++ q :: stripBlockComments r := by
  have hwhole := Text.splitFirst?_append_cons (by decide) (notMem_marker hq) t r
  cases ht : Text.splitFirst? "/*".toList t with
  | some s =>
    obtain ⟨gap, opened⟩ := s
    have hcloses := h gap opened (by rw [Text.splitFirst?_eq_some ht, List.append_assoc])
    have hbehind : r <:+: opened ++ q :: r := ((List.suffix_cons q r).trans (List.suffix_append _ _)).isInfix
    rw [ht] at hwhole
    rw [stripBlockComments_of_open hwhole (Text.splitFirst?_eq_none_iff.2 hcloses),
      stripBlockComments_of_not_closes fun hwithin => hcloses (hwithin.trans hbehind)]
  | none =>
    rw [ht] at hwhole
    cases hr : Text.splitFirst? "/*".toList r with
    | none =>
      rw [hr] at hwhole
      rw [stripBlockComments_of_none hwhole, stripBlockComments_of_none hr]
    | some s =>
      obtain ⟨gap, opened⟩ := s
      rw [hr] at hwhole
      cases hopened : Text.splitFirst? "*/".toList opened with
      | none => rw [stripBlockComments_of_open hwhole hopened, stripBlockComments_of_open hr hopened]
      | some s =>
        obtain ⟨body, rest⟩ := s
        rw [stripBlockComments_of_closed hwhole hopened, stripBlockComments_of_closed hr hopened, List.append_assoc,
          List.cons_append]

/-- Behind a text from which no comment reaches on, the removal of comments starts anew at a quote. -/
theorem stripBlockComments_append_cons (h : NoneReaches (q :: r) t) (hq : isLiteralQuote q = true) :
    stripBlockComments (t ++ q :: r) = stripBlockComments t ++ q :: stripBlockComments r := by
  induction h with
  | none opens =>
    rw [stripBlockComments_append_cons_of_opensNone opens hq, stripBlockComments_of_opensNone opens]
  | comment opens closes behind ih =>
    rw [stripBlockComments_comment opens closes, List.append_assoc, List.append_assoc, List.append_assoc,
      List.append_assoc, stripBlockComments_comment opens closes, ih]
    simp only [List.append_assoc]

/-- A text that ends behind a character which the front lacks goes on behind that front. -/
theorem exists_of_append_cons {front w : Text} (hq : q ∉ front) (h : gap ++ q :: w = front ++ t) :
    ∃ gap', gap = front ++ gap' ∧ t = gap' ++ q :: w := by
  rcases List.append_eq_append_iff.1 h with ⟨a, rfl, hsplit⟩ | ⟨a, rfl, hsplit⟩
  · cases a with
    | nil => exact ⟨[], by simp, hsplit.symm⟩
    | cons d a =>
      rw [(List.cons.inj hsplit).1] at hq
      exact absurd (by simp) hq
  · exact ⟨a, rfl, hsplit⟩

theorem opensNone_of_absent (h : ¬"*/".toList <:+: t ++ r) : OpensNone t r := by
  rintro u v rfl hwithin
  refine h (hwithin.trans ?_)
  rw [List.append_assoc, List.append_assoc]
  exact ((List.suffix_append _ _).trans (List.suffix_append _ _)).isInfix

theorem noneReaches_append_iff {front : Text} (h : '/' ∉ front) :
    NoneReaches r (front ++ t) ↔ NoneReaches r t := by
  constructor
  · intro hnone
    generalize hline : front ++ t = line at hnone
    cases hnone with
    | none opens =>
      refine .none fun u v hsplit => opens (front ++ u) v ?_
      rw [← hline, hsplit, List.append_assoc]
    | @comment gap body rest opens closes behind =>
      obtain ⟨gap', rfl, rfl⟩ := exists_of_append_cons h hline.symm
      exact .comment (fun hwithin => opens (hwithin.trans (List.suffix_append front gap').isInfix)) closes behind
  · intro hnone
    cases hnone with
    | none opens =>
      refine .none fun u v hsplit => ?_
      obtain ⟨u', rfl, ht⟩ := exists_of_append_cons h hsplit.symm
      exact opens u' v ht
    | @comment gap body rest opens closes behind =>
      rw [← List.append_assoc]
      exact .comment (fun hwithin => opens (Text.infix_of_infix_append h hwithin)) closes behind

end

/-! ## The passes over a part of a line -/

/-- What the passes for the included namespaces leave of a part of a line, behind the character `before`. -/
def includedPasses (ctx : Context) (before : Option Char) (t : Text) : Text :=
  ctx.includes.namespaces.toList.foldl (fun t ns => leftFrom .kept (ns ++ ['.']) before t) t

def leftOf (ctx : Context) (before : Option Char) (t : Text) : Text :=
  includedPasses ctx before (stripBlockComments (stripQualifier ctx.ns .removed t))

section
variable {ctx : Context} {before after t c : Text} {q : Char} {ns : Namespace}

theorem not_isPathChar_of_isLiteralQuote (hq : isLiteralQuote q = true) : isPathChar q = false := by
  rcases isLiteralQuote_cases hq with rfl | rfl <;> decide

theorem notMem_of_isLiteralQuote (hnames : HasDottedNames ctx) (hq : isLiteralQuote q = true)
    (hns : ns ∈ ctx.ns :: ctx.includes.namespaces.toList) : q ∉ ns ++ ['.'] := by
  intro hmem
  have hpath := isPathChar_of_mem_needle (hnames.isPathChar ns hns) q hmem
  rw [not_isPathChar_of_isLiteralQuote hq] at hpath
  cases hpath

theorem includedPasses_append_cons (hnames : HasDottedNames ctx) (hq : isLiteralQuote q = true) (before : Option Char)
    (t r : Text) :
    includedPasses ctx before (t ++ q :: r) = includedPasses ctx before t ++ q :: includedPasses ctx (some q) r := by
  have hfold : ∀ names : List Namespace, (∀ ns ∈ names, q ∉ ns ++ ['.']) → ∀ t r,
      names.foldl (fun t ns => leftFrom .kept (ns ++ ['.']) before t) (t ++ q :: r) =
        names.foldl (fun t ns => leftFrom .kept (ns ++ ['.']) before t) t ++
          q :: names.foldl (fun t ns => leftFrom .kept (ns ++ ['.']) (some q) t) r := by
    intro names hfree
    induction names with
    | nil => exact fun _ _ => rfl
    | cons ns names ih =>
      intro t r
      rw [List.foldl_cons, leftFrom_append_cons (by simp) (hfree ns List.mem_cons_self)]
      exact ih (fun m hm => hfree m (List.mem_cons_of_mem ns hm)) _ _
  exact hfold _ (fun ns hns => notMem_of_isLiteralQuote hnames hq (List.mem_cons_of_mem _ hns)) t r

theorem stripQualifier_append_cons (hnames : HasDottedNames ctx) (hq : isLiteralQuote q = true) (t r : Text) :
    stripQualifier ctx.ns .removed (t ++ q :: r) =
      stripQualifier ctx.ns .removed t ++ q :: stripQualifier ctx.ns .removed r := by
  have hcut : leftFrom .removed (ctx.ns ++ ['.']) none (t ++ q :: r) = _ :=
    leftFrom_append_cons (by simp) (notMem_of_isLiteralQuote hnames hq List.mem_cons_self) none t r
  have hbehind : startsPath (some q) = startsPath none := by
    rw [startsPath_some, not_isPathChar_of_isLiteralQuote hq]
    rfl
  rw [leftFrom_removed_congr (by simp) hbehind] at hcut
  exact hcut

theorem stripQualifier_of_absent {quoted : Quoted} (h : ¬ns ++ ['.'] <:+: t) : stripQualifier ns quoted t = t :=
  leftFrom_of_none (Text.splitFirst?_eq_none_iff.2 h)

/-- A literal that holds no own qualifier, stands outside comments and opens none is passed on its own, and so is what
stands around it. -/
theorem unqualify_withLiteral (hnames : HasDottedNames ctx) (hq : isLiteralQuote q = true)
    (hown : ¬ctx.ns ++ ['.'] <:+: c)
    (houtside : NoneReaches (withLiteral [] q c (stripQualifier ctx.ns .removed after))
      (stripQualifier ctx.ns .removed before))
    (hinside : OpensNone c (q :: stripQualifier ctx.ns .removed after)) :
    unqualify ctx (withLiteral before q c after) =
      withLiteral (Text.trimStart (leftOf ctx none before)) q (includedPasses ctx (some q) c)
        (Text.trimEnd (leftOf ctx (some q) after)) := by
  have hblank := Idl.not_isBlank_of_isLiteralQuote hq
  have hstrip : stripBlockComments (stripQualifier ctx.ns .removed (withLiteral before q c after)) =
      stripBlockComments (stripQualifier ctx.ns .removed before) ++
        q :: (c ++ q :: stripBlockComments (stripQualifier ctx.ns .removed after)) := by
    rw [withLiteral, stripQualifier_append_cons hnames hq, stripQualifier_append_cons hnames hq,
      stripQualifier_of_absent hown, stripBlockComments_append_cons houtside hq,
      stripBlockComments_append_cons_of_opensNone hinside hq]
  have hpasses : unqualify ctx (withLiteral before q c after) =
      Text.trim (includedPasses ctx none (stripBlockComments (stripQualifier ctx.ns .removed
        (withLiteral before q c after)))) := rfl
  rw [hpasses, hstrip, includedPasses_append_cons hnames hq, includedPasses_append_cons hnames hq, Text.trim,
    Text.trimStart_append_cons hblank, Text.trimEnd_append_cons hblank, Text.trimEnd_append_cons hblank]
  rfl

end

/-! ## When a literal stays as it is -/

/-- An included qualifier behind `t` is kept: it stands inside a path or right behind a quote. -/
def IsGuard (t : Text) : Prop := ∀ c ∈ t.getLast?, isPathChar c = true ∨ Text.isQuote c = true

section
variable {ctx : Context} {t : Text} {q : Char} {ns : Namespace}

theorem mem_pathStarts_iff {b b' : Option Char} {s : Text} :
    (b', s) ∈ pathStarts b t ↔ ∃ u, t = u ++ s ∧ s ≠ [] ∧ b' = u.getLast?.or b ∧ startsPath b' = true := by
  induction t generalizing b with
  | nil =>
    refine iff_of_false List.not_mem_nil ?_
    rintro ⟨u, hsplit, hne, -, -⟩
    exact hne (List.append_eq_nil_iff.1 hsplit.symm).2
  | cons c r ih =>
    have hrest : (b', s) ∈ pathStarts (some c) r ↔
        ∃ u, r = u ++ s ∧ s ≠ [] ∧ b' = (c :: u).getLast?.or b ∧ startsPath b' = true := by
      simp only [ih, Text.getLast?_cons_or]
    rw [pathStarts]
    constructor
    · intro hmem
      have hcases : (startsPath b = true ∧ (b', s) = (b, c :: r)) ∨ (b', s) ∈ pathStarts (some c) r := by
        split at hmem
        · next hb => exact (List.mem_cons.1 hmem).imp_left fun heq => ⟨hb, heq⟩
        · exact .inr hmem
      rcases hcases with ⟨hb, heq⟩ | hmem
      · cases heq
        exact ⟨[], rfl, List.cons_ne_nil c r, rfl, hb⟩
      · obtain ⟨u, rfl, h⟩ := hrest.1 hmem
        exact ⟨c :: u, rfl, h⟩
    · rintro ⟨u, hsplit, hne, hbefore, hstarts⟩
      cases u with
      | nil =>
        obtain rfl : c :: r = s := hsplit
        obtain rfl : b' = b := hbefore
        rw [if_pos hstarts]
        exact List.mem_cons_self
      | cons d u =>
        obtain ⟨rfl, hr⟩ := List.cons.inj hsplit
        have hmem := hrest.2 ⟨u, hr, hne, hbefore, hstarts⟩
        split
        · exact List.mem_cons_of_mem _ hmem
        · exact hmem

/-- A pass leaves a text as it is exactly if it removes nothing at any path start. -/
theorem removeFrom_eq_self_iff {len : Option Char → Text → Nat} (h : IsRemoval len) {b : Option Char}
    (hb : startsPath b = true) (t : Text) :
    removeFrom len b 0 t = t ↔ ∀ p ∈ pathStarts b t, len p.1 p.2 = 0 := by
  have hnone : ∀ b t, removeFrom (fun _ _ => 0) b 0 t = t := by
    intro b t
    induction t generalizing b with
    | nil => rfl
    | cons c r ih => rw [removeFrom, ite_self, ih]
  have hiff := removeFrom_eq_iff h ⟨fun _ _ => Nat.zero_le _, fun _ _ _ _ _ => rfl⟩ hb t
  rwa [hnone] at hiff

/-- Behind a quote an included qualifier is kept exactly where it is guarded. -/
theorem leftFrom_kept_eq_self_iff (hns : ∀ c ∈ ns, isPathChar c = true) (hq : isLiteralQuote q = true) (t : Text) :
    leftFrom .kept (ns ++ ['.']) (some q) t = t ↔ ∀ u v, t = u ++ (ns ++ '.' :: v) → IsGuard (q :: u) := by
  have hstarts : startsPath (some q) = true := by
    rw [startsPath_some, not_isPathChar_of_isLiteralQuote hq]
    rfl
  have hlast : ∀ u : Text, u.getLast?.or (some q) = (q :: u).getLast? := fun u => by
    rw [← Text.getLast?_cons_or q u none, Option.or_none]
  rw [leftFrom_eq_removeFrom hns, removeFrom_eq_self_iff (isRemoval_qualifierLength hns) hstarts]
  constructor
  · rintro hzero u v rfl d hd
    by_contra hnot
    obtain ⟨hpath, hquote⟩ := not_or.1 hnot
    have hmem : (some d, ns ++ '.' :: v) ∈ pathStarts (some q) (u ++ (ns ++ '.' :: v)) :=
      mem_pathStarts_iff.2 ⟨u, rfl, by simp, by rw [hlast]; exact hd.symm, by simpa [startsPath_some] using hpath⟩
    have hfound : Text.startsWith (ns ++ '.' :: v) (ns ++ ['.']) = true := Text.startsWith_iff.2 ⟨v, by simp⟩
    have hlength := hzero _ hmem
    rw [qualifierLength, hfound, Option.any_some, Bool.eq_false_iff.2 hquote] at hlength
    cases hlength
  · rintro hguard ⟨b, s⟩ hp
    obtain ⟨u, rfl, -, rfl, hb⟩ := mem_pathStarts_iff.1 hp
    rw [qualifierLength]
    split
    · next hfound =>
      obtain ⟨hstart, hkept⟩ := Bool.and_eq_true_iff.1 hfound
      obtain ⟨v, rfl⟩ := Text.startsWith_iff.1 hstart
      obtain ⟨d, hd⟩ : ∃ d, (q :: u).getLast? = some d := ⟨_, List.getLast?_cons⟩
      rw [hlast, hd] at hb hkept
      rcases hguard u v (by simp) d hd with hpath | hquote
      · rw [startsPath_some, hpath] at hb
        cases hb
      · rw [Option.any_some, hquote] at hkept
        cases hkept
    · rfl

/-- Passes that only remove leave a text as it is exactly if each of them does. -/
theorem foldl_eq_self_iff {f : Text → Namespace → Text} (hf : ∀ t ns, (f t ns).Sublist t) (names : List Namespace)
    (t : Text) : names.foldl f t = t ↔ ∀ ns ∈ names, f t ns = t := by
  have hfold : ∀ (names : List Namespace) (t : Text), (names.foldl f t).Sublist t := by
    intro names
    induction names with
    | nil => exact List.Sublist.refl
    | cons ns names ih => exact fun t => (ih _).trans (hf t ns)
  induction names generalizing t with
  | nil => exact iff_of_true rfl (List.forall_mem_nil _)
  | cons ns names ih =>
    rw [List.foldl_cons, List.forall_mem_cons]
    constructor
    · intro h
      have hsublist := hfold names (f t ns)
      rw [h] at hsublist
      have hns : f t ns = t := (hf t ns).antisymm hsublist
      rw [hns] at h
      exact ⟨hns, (ih t).1 h⟩
    · rintro ⟨hns, h⟩
      rw [hns]
      exact (ih t).2 h

/-- The passes for the included namespaces leave a literal as it is exactly if each qualifier in it is guarded. -/
theorem includedPasses_eq_self_iff (hnames : HasDottedNames ctx) (hq : isLiteralQuote q = true) (t : Text) :
    includedPasses ctx (some q) t = t ↔
      ∀ ns ∈ ctx.includes.namespaces, ∀ u v, t = u ++ (ns ++ '.' :: v) → IsGuard (q :: u) := by
  rw [includedPasses, foldl_eq_self_iff fun t ns => leftFrom_sublist (by simp) (some q) t]
  exact forall₂_congr fun ns hns =>
    leftFrom_kept_eq_self_iff (hnames.isPathChar ns (List.mem_cons_of_mem _ hns)) hq t

/-! ## Rewritten lines -/

theorem stripQualifier_opening (hns : ∀ c ∈ ns, isPathChar c = true) {front : Text} (h : IsOpening front) (t : Text) :
    stripQualifier ns .removed (front ++ t) = front ++ stripQualifier ns .removed t := by
  have hstarts : startsPath front.getLast? = startsPath none := h.last
  rw [h.isFront.stripQualifier_eq hns, leftFrom_removed_congr (by simp) hstarts]
  rfl

/-- A literal of a line stands in the rewritten line too, and no comment reaches it there if none does so in the
line. -/
theorem exists_rewritten_withLiteral (hnames : HasDottedNames ctx) (hq : isLiteralQuote q = true)
    (before c after : Text) :
    ∃ before', rewritten ctx (withLiteral before q c after) = withLiteral before' q c after ∧
      ∀ r, NoneReaches r (stripQualifier ctx.ns .removed before) →
        NoneReaches r (stripQualifier ctx.ns .removed before') := by
  obtain ⟨front, front', tail, hline, hrewritten, hfront, hfront'⟩ :=
    exists_opening_rewritten ctx (withLiteral before q c after)
  have hfree : q ∉ front := by
    rcases isLiteralQuote_cases hq with rfl | rfl <;> exact hfront.notMem (by decide) (by decide) (by decide)
  obtain ⟨t, rfl, rfl⟩ := exists_of_append_cons hfree hline
  have hown := hnames.isPathChar ctx.ns List.mem_cons_self
  refine ⟨front' ++ t, ?_, fun r hnone => ?_⟩
  · rw [hrewritten, withLiteral, List.append_assoc]
  · rw [stripQualifier_opening hown hfront, noneReaches_append_iff hfront.isFront.2.1] at hnone
    rw [stripQualifier_opening hown hfront', noneReaches_append_iff hfront'.isFront.2.1]
    exact hnone

end

/-! ## The lines of a declaration module -/

/-- A literal that no comment reaches, in which no own qualifier stands and no comment opens that closes on the line,
goes into the module between what is left of the line around it. It stays as it is exactly if each included qualifier in
it stands inside a path or right behind a quote. -/
theorem literal_unchanged_iff {ctx : Context} {files : List Text} {file before c after : Text} {q : Char}
    (hnames : HasDottedNames ctx) (hq : isLiteralQuote q = true) (hfile : file ∈ files)
    (hline : withLiteral before q c after ∈ Text.lines file) (hkept : IsKept (withLiteral before q c after))
    (hown : ¬ctx.ns ++ ['.'] <:+: c)
    (houtside : NoneReaches (withLiteral [] q c (stripQualifier ctx.ns .removed after))
      (stripQualifier ctx.ns .removed before))
    (hinside : OpensNone c (q :: stripQualifier ctx.ns .removed after)) :
    (∃ adapted, adaptLine? ctx (withLiteral before q c after) = some adapted ∧ adapted.text ∈ moduleLines ctx files ∧
      ∃ before', rewritten ctx (withLiteral before q c after) = withLiteral before' q c after ∧
        adapted.text = withLiteral (Text.trimStart (leftOf ctx none before')) q (includedPasses ctx (some q) c)
          (Text.trimEnd (leftOf ctx (some q) after))) ∧
    (includedPasses ctx (some q) c = c ↔
      ∀ ns ∈ ctx.includes.namespaces, ∀ u v, c = u ++ (ns ++ '.' :: v) → IsGuard (q :: u)) := by
  refine ⟨?_, includedPasses_eq_self_iff hnames hq c⟩
  obtain ⟨adapted, hadapted, -⟩ := exists_adaptLine?_of_isKept ctx hkept
  obtain ⟨before', hrewritten, hnone⟩ := exists_rewritten_withLiteral hnames hq before c after
  have htext := text_of_adaptLine? hadapted
  rw [hrewritten, unqualify_withLiteral hnames hq hown (hnone _ houtside) hinside] at htext
  have hquote : q ∈ adapted.text := by
    rw [htext]
    exact List.mem_append_right _ List.mem_cons_self
  refine ⟨adapted, hadapted, ?_, before', hrewritten, htext⟩
  refine mem_moduleLines_of_mem_adaptFile hfile (List.mem_filterMap.2 ⟨_, hline, hadapted⟩) ?_ ?_
  · exact List.ne_nil_of_mem hquote
  · intro hend
    rw [hend, List.mem_singleton] at hquote
    subst hquote
    cases hq

/-- A qualifier right behind the opening quote, a comment in front of it and one that opens in the literal and does not
close. -/
theorem literal_unchanged_tag :
    let ctx := commonUser "pkg.model".toList
    let file := "declare module pkg.model \x7b\n  /* a */ tag: \"pkg.common.tag /*\";\n\x7d\n".toList
    "tag: \"pkg.common.tag /*\";".toList ∈ moduleLines ctx [file] ∧
      ∀ ns ∈ ctx.includes.namespaces, ∀ u v, "pkg.common.tag /*".toList = u ++ (ns ++ '.' :: v) →
        IsGuard ('"' :: u) := by
  intro ctx file
  have hnames : HasDottedNames ctx := by
    unfold HasDottedNames
    decide
  have hkept : IsKept (withLiteral "  /* a */ tag: ".toList '"' "pkg.common.tag /*".toList ";".toList) := by
    unfold IsKept
    decide +kernel
  have hfront : ∀ r, ¬"*/".toList <:+: " tag: ".toList ++ r →
      NoneReaches r ("  ".toList ++ ("/*".toList ++ (" a ".toList ++ ("*/".toList ++ " tag: ".toList)))) :=
    fun r h => .comment (by decide) (by decide) (.none (opensNone_of_absent h))
  have hstrip : stripQualifier ctx.ns .removed "  /* a */ tag: ".toList = "  /* a */ tag: ".toList :=
    stripQualifier_of_notMem (by decide)
  have houtside : NoneReaches
      (withLiteral [] '"' "pkg.common.tag /*".toList (stripQualifier ctx.ns .removed ";".toList))
      (stripQualifier ctx.ns .removed "  /* a */ tag: ".toList) := by
    rw [hstrip]
    exact hfront _ (by decide +kernel)
  have hinside : OpensNone "pkg.common.tag /*".toList ('"' :: stripQualifier ctx.ns .removed ";".toList) :=
    opensNone_of_absent (by decide +kernel)
  obtain ⟨⟨adapted, -, hmem, before, hrewritten, htext⟩, hiff⟩ :=
    literal_unchanged_iff hnames (by decide) (List.mem_singleton_self file) (by decide +kernel) hkept
      (by decide +kernel) houtside hinside
  have hraw : rewritten ctx (withLiteral "  /* a */ tag: ".toList '"' "pkg.common.tag /*".toList ";".toList) =
      withLiteral "  /* a */ tag: ".toList '"' "pkg.common.tag /*".toList ";".toList := by
    decide +kernel
  obtain rfl : before = "  /* a */ tag: ".toList := List.append_cancel_right (hrewritten.symm.trans hraw)
  have hline : adapted.text = "tag: \"pkg.common.tag /*\";".toList := htext.trans (by decide +kernel)
  rw [hline] at hmem
  exact ⟨hmem, hiff.1 (by decide +kernel)⟩

/-- A qualifier behind a blank and a comment in a literal are removed. -/
theorem literal_changed_behind_blank :
    let ctx := commonUser "pkg.model".toList
    let tag := withLiteral "  tag: ".toList '"' "see pkg.common.literal".toList ";".toList
    let glob := withLiteral "  glob: ".toList '"' "a/*b*/c".toList ";".toList
    ¬"/*".toList <:+: tag ∧ ¬ctx.ns <:+: tag ∧ ¬ctx.ns <:+: glob ∧
      (adaptLine? ctx tag).map AdaptedLine.text = some "tag: \"see literal\";".toList ∧
      ¬"see pkg.common.literal".toList <:+: "tag: \"see literal\";".toList ∧
      (adaptLine? ctx glob).map AdaptedLine.text = some "glob: \"ac\";".toList ∧
      ¬"a/*b*/c".toList <:+: "glob: \"ac\";".toList := by
  decide +kernel

end ThriftModules.Module
