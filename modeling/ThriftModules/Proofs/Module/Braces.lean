import Mathlib.Data.List.Infix
import ThriftModules.Proofs.Module.Headers

/-!
# Braces in a declaration module

* `depthAfter` : how many braces are open behind a text, if none closes that was not opened in it;
* `IsBalanced` : each brace of the text is closed in it, and none closes that was not opened;
* `braces_unqualify` : a line whose own qualifiers hide no comment keeps its braces;
* `IsAmbient` : the lines of a declaration file with one ambient module, whose body is balanced and has no comment;
* `IsEnclosed` : the brace at the end of the first line is closed by the last line and not earlier;
* `isEnclosed_composeDeclarations` : the module composed from such files is balanced, from its first line to its last.

The own qualifiers are removed before the block comments are, so that a slash in front of one can come to open a
comment.
-/

namespace ThriftModules.Module

set_option autoImplicit false

open Text (IsWord IsGap IsBlanks)

/-! ## Balance -/

def isBrace (c : Char) : Bool := c == '{' || c == '}'

def braces (t : Text) : Text := t.filter isBrace

def depthStep (depth : Nat) (c : Char) : Option Nat :=
  if c = '{' then some (depth + 1)
  else if c = '}' then if depth = 0 then none else some (depth - 1)
  else some depth

/-- How many braces are open behind a text in front of which `depth` are, if none closes that was not open. -/
def depthAfter (depth : Nat) (t : Text) : Option Nat := t.foldlM depthStep depth

/-- Each brace of the text is closed in it, and none closes that was not opened. -/
def IsBalanced (t : Text) : Prop := depthAfter 0 t = some 0

instance (t : Text) : Decidable (IsBalanced t) := inferInstanceAs (Decidable (_ = _))

section
variable {t u : Text} {depth depth' : Nat} {c : Char}

theorem depthAfter_cons (depth : Nat) (c : Char) (t : Text) :
    depthAfter depth (c :: t) = (depthStep depth c).bind (depthAfter · t) := List.foldlM_cons

theorem depthAfter_append (depth : Nat) (t u : Text) :
    depthAfter depth (t ++ u) = (depthAfter depth t).bind (depthAfter · u) := List.foldlM_append

theorem depthStep_of_not_isBrace (h : isBrace c = false) (depth : Nat) : depthStep depth c = some depth := by
  obtain ⟨hopen, hclose⟩ := Bool.or_eq_false_iff.1 h
  rw [depthStep, if_neg (by simpa using hopen), if_neg (by simpa using hclose)]

theorem depthAfter_braces (depth : Nat) (t : Text) : depthAfter depth (braces t) = depthAfter depth t := by
  induction t generalizing depth with
  | nil => rfl
  | cons c t ih =>
    rw [depthAfter_cons, braces]
    cases hc : isBrace c with
    | true =>
      rw [List.filter_cons_of_pos hc, depthAfter_cons]
      exact congrArg _ (funext ih)
    | false =>
      rw [List.filter_cons_of_neg (by rw [hc]; decide), depthStep_of_not_isBrace hc]
      exact ih depth

theorem isBalanced_congr (h : braces t = braces u) : IsBalanced t ↔ IsBalanced u := by
  rw [IsBalanced, IsBalanced, ← depthAfter_braces 0 t, h, depthAfter_braces]

theorem depthStep_add (h : depthStep depth c = some depth') (k : Nat) :
    depthStep (depth + k) c = some (depth' + k) := by
  unfold depthStep at h ⊢
  split at h
  · next hopen =>
    cases h
    rw [if_pos hopen, Nat.add_right_comm]
  · next hopen =>
    rw [if_neg hopen]
    split at h
    · next hclose =>
      split at h
      · cases h
      · next hpos =>
        cases h
        rw [if_pos hclose, if_neg (by omega), Nat.sub_add_comm (Nat.pos_of_ne_zero hpos)]
    · next hclose =>
      cases h
      rw [if_neg hclose]

theorem depthAfter_add (h : depthAfter depth t = some depth') (k : Nat) :
    depthAfter (depth + k) t = some (depth' + k) := by
  induction t generalizing depth with
  | nil =>
    cases h
    rfl
  | cons c t ih =>
    rw [depthAfter_cons] at h ⊢
    obtain ⟨mid, hstep, hrest⟩ := Option.bind_eq_some_iff.1 h
    rw [depthStep_add hstep]
    exact ih hrest

theorem IsBalanced.depthAfter (h : IsBalanced t) (depth : Nat) : Module.depthAfter depth t = some depth := by
  have hdepth := depthAfter_add h depth
  rwa [Nat.zero_add] at hdepth

theorem IsBalanced.append (ht : IsBalanced t) (hu : IsBalanced u) : IsBalanced (t ++ u) := by
  rw [IsBalanced, depthAfter_append, ht]
  exact hu

theorem IsBalanced.enclose (h : IsBalanced t) : IsBalanced ('{' :: (t ++ ['}'])) := by
  have hinner : Module.depthAfter 1 t = some 1 := h.depthAfter 1
  rw [IsBalanced, depthAfter_cons, Option.bind_eq_some_iff]
  refine ⟨1, rfl, ?_⟩
  rw [depthAfter_append, hinner]
  rfl

end

/-! ## The braces of a text -/

section
variable {t : Text}

theorem braces_append (t u : Text) : braces (t ++ u) = braces t ++ braces u := List.filter_append ..

theorem braces_eq_nil (h : ∀ c ∈ t, isBrace c = false) : braces t = [] :=
  List.filter_eq_nil_iff.2 fun c hc => by rw [h c hc]; exact Bool.false_ne_true

theorem not_isBrace_of_isBlank {c : Char} (h : Text.isBlank c = true) : isBrace c = false := by
  cases hc : isBrace c with
  | false => rfl
  | true =>
    rcases Bool.or_eq_true_iff.1 hc with hc | hc <;> rw [beq_iff_eq.1 hc] at h <;> revert h <;> decide

theorem not_isBrace_of_isWordChar {c : Char} (h : Text.isWordChar c = true) : isBrace c = false := by
  cases hc : isBrace c with
  | false => rfl
  | true =>
    rcases Bool.or_eq_true_iff.1 hc with hc | hc <;> rw [beq_iff_eq.1 hc] at h <;> revert h <;> decide

theorem braces_blanks (h : IsBlanks t) : braces t = [] :=
  braces_eq_nil fun c hc => not_isBrace_of_isBlank (h c hc)

theorem braces_word (h : IsWord t) : braces t = [] :=
  braces_eq_nil fun c hc => not_isBrace_of_isWordChar (h.2 c hc)

theorem braces_trimStart (t : Text) : braces (Text.trimStart t) = braces t := by
  obtain ⟨gap, hsplit, hblank⟩ := Text.exists_trimStart t
  conv_rhs => rw [hsplit, braces_append, braces_blanks hblank]
  rfl

theorem braces_trim (t : Text) : braces (Text.trim t) = braces t := by
  obtain ⟨a, b, hsplit, ha, hb⟩ := Text.exists_trim t
  conv_rhs => rw [hsplit, braces_append, braces_append, braces_blanks ha, braces_blanks hb, List.append_nil]
  rfl

theorem braces_unlines (ts : List Text) : braces (Text.unlines ts) = braces ts.flatten := by
  induction ts with
  | nil => rfl
  | cons t ts ih =>
    have hsplit : Text.unlines (t :: ts) = t ++ ['\n'] ++ Text.unlines ts := rfl
    rw [hsplit, braces_append, braces_append, ih, List.flatten_cons, braces_append]
    exact congrArg (· ++ _) (List.append_nil _)

end

/-! ## The braces of a line -/

section
variable {ctx : Context} {needle qualifier raw line : Text} {quoted : Quoted}

theorem braces_leftFrom (hn : needle ≠ []) (hneedle : braces needle = []) (before : Option Char) (t : Text) :
    braces (leftFrom quoted needle before t) = braces t := by
  have hkept : ∀ b : Bool, braces (if b then [] else needle) = [] := by
    rintro (_ | _)
    · exact hneedle
    · rfl
  induction t using Text.search_induction hn generalizing before with
  | last t ht => rw [leftFrom_of_none ht]
  | more t gap after ht ih =>
    rw [leftFrom_of_some hn ht, braces_append, braces_append, hkept, ih, Text.splitFirst?_eq_some ht, braces_append,
      braces_append, hneedle, List.append_nil]
    rfl

theorem braces_stripQualifier (h : braces qualifier = []) (quoted : Quoted) (line : Text) :
    braces (stripQualifier qualifier quoted line) = braces line := by
  refine braces_leftFrom (by simp) ?_ none line
  rw [braces_append, h]
  rfl

theorem braces_rewritten (ctx : Context) (raw : Text) : braces (rewritten ctx raw) = braces raw := by
  rw [rewritten]
  split
  · next name line hline =>
    obtain ⟨header, hheader⟩ := exists_isHeaderOf_of_exportHeader? hline
    cases hheader with
    | @intro indent gap after indented apart word opens declared =>
      rw [exportHeader?_append indented apart word opens declared] at hline
      obtain ⟨-, rfl⟩ := Prod.mk.inj (Option.some.inj hline)
      have hopening : braces (exportOpening header) = [] := by cases header <;> rfl
      have hblank : braces [' '] = [] := rfl
      rw [exportFront, braces_append, braces_append, braces_append, hopening, braces_trimStart, braces_append,
        braces_append, braces_append, braces_append, braces_blanks indented.2, braces_word (isWord_keyword header),
        braces_blanks apart.2, braces_word word, hblank]
      rfl
  · rfl

/-- All namespaces are written without braces. -/
def HasBracelessNames (ctx : Context) : Prop := ∀ ns ∈ ctx.ns :: ctx.includes.namespaces.toList, braces ns = []

theorem braces_foldl_stripQualifier {names : List Namespace} (h : ∀ ns ∈ names, braces ns = []) (line : Text) :
    braces (names.foldl (fun line ns => stripQualifier ns .kept line) line) = braces line := by
  induction names generalizing line with
  | nil => rfl
  | cons ns names ih =>
    rw [List.foldl_cons, ih (fun m hm => h m (List.mem_cons_of_mem ns hm)),
      braces_stripQualifier (h ns List.mem_cons_self)]

/-! ## Comments -/

/-- What is left starts as the text does, or as what follows the needle in front of it. -/
theorem head?_leftFrom (hn : needle ≠ []) (before : Option Char) (t : Text) :
    (leftFrom quoted needle before t).head? = t.head? ∨
      ∃ after, t = needle ++ after ∧
        leftFrom quoted needle before t = leftFrom quoted needle needle.getLast? after := by
  cases hs : Text.splitFirst? needle t with
  | none =>
    rw [leftFrom_of_none hs]
    exact .inl rfl
  | some s =>
    obtain ⟨gap, after⟩ := s
    have hsplit := Text.splitFirst?_eq_some hs
    rw [leftFrom_of_some hn hs]
    cases gap with
    | cons c gap =>
      rw [hsplit]
      exact .inl rfl
    | nil =>
      cases quoted.removes ⟨[], [].getLast?.or before, after⟩ with
      | true => exact .inr ⟨after, hsplit, rfl⟩
      | false =>
        rw [hsplit, if_neg Bool.false_ne_true, List.nil_append, List.nil_append, List.head?_append_of_ne_nil _ hn,
          List.head?_append_of_ne_nil _ hn]
        exact .inl rfl

theorem head?_leftFrom_behind (qualifier after : Text) :
    (leftFrom quoted (qualifier ++ ['.']) (qualifier ++ ['.']).getLast? after).head? = after.head? := by
  rw [List.getLast?_concat]
  cases hs : Text.splitFirst? (qualifier ++ ['.']) after with
  | none => rw [leftFrom_of_none hs]
  | some s =>
    obtain ⟨gap, rest⟩ := s
    have hsplit := Text.splitFirst?_eq_some hs
    rw [leftFrom_of_some (by simp) hs, hsplit]
    cases gap with
    | cons c gap => rfl
    | nil =>
      have hkept : quoted.removes ⟨[], [].getLast?.or (some '.'), rest⟩ = false := rfl
      rw [hkept, if_neg Bool.false_ne_true]
      cases qualifier <;> rfl

/-- A comment that opens where a qualifier is gone opens with a slash in front of that qualifier. -/
theorem infix_of_infix_leftFrom (before : Option Char) (t : Text)
    (h : "/*".toList <:+: leftFrom quoted (qualifier ++ ['.']) before t) :
    "/*".toList <:+: t ∨ '/' :: (qualifier ++ ".*".toList) <:+: t := by
  have hn : qualifier ++ ['.'] ≠ [] := by simp
  cases t with
  | nil =>
    have hnone : Text.splitFirst? (qualifier ++ ['.']) [] = none := by cases qualifier <;> rfl
    rw [leftFrom_of_none hnone] at h
    exact .inl h
  | cons c r =>
    cases hs : Text.stripStart? (qualifier ++ ['.']) (c :: r) with
    | none =>
      rw [leftFrom_cons hn hs] at h
      rcases List.infix_cons_iff.1 h with hstart | hwithin
      · obtain ⟨rest, hrest⟩ := hstart
        have hcons : '/' :: '*' :: rest = c :: leftFrom quoted (qualifier ++ ['.']) (some c) r := hrest
        obtain ⟨rfl, hstar⟩ := List.cons.inj hcons
        have hhead : (leftFrom quoted (qualifier ++ ['.']) (some '/') r).head? = some '*' := by
          rw [← hstar]
          rfl
        rcases head?_leftFrom hn (some '/') r with heq | ⟨after, rfl, heq⟩
        · rw [heq] at hhead
          obtain ⟨rest, rfl⟩ := List.head?_eq_some_iff.1 hhead
          exact .inl ⟨[], rest, rfl⟩
        · rw [heq, head?_leftFrom_behind] at hhead
          obtain ⟨rest, rfl⟩ := List.head?_eq_some_iff.1 hhead
          exact .inr ⟨[], rest, by simp⟩
      · exact (infix_of_infix_leftFrom (some c) r hwithin).imp List.infix_cons List.infix_cons
    | some after =>
      have hfirst : Text.splitFirst? (qualifier ++ ['.']) (c :: r) = some ([], after) := by rw [Text.splitFirst?, hs]
      have hsplit := Text.stripStart?_eq_some_iff.1 hs
      have hlen : after.length < r.length + 1 := by
        rw [← List.length_cons, hsplit, List.length_append, List.length_append, List.length_singleton]
        omega
      have hlift : ∀ {s : Text}, s <:+: after → s <:+: c :: r := fun hwithin =>
        hwithin.trans (hsplit ▸ (List.suffix_append _ _).isInfix)
      have hrec := fun hwithin => (infix_of_infix_leftFrom (qualifier ++ ['.']).getLast? after hwithin).imp hlift hlift
      rw [leftFrom_of_some hn hfirst, List.nil_append] at h
      split at h
      · exact hrec h
      · rw [List.append_assoc, List.singleton_append, Text.infix_append_cons_iff (by decide) (by decide)] at h
        refine h.elim (fun hwithin => .inl (hwithin.trans ?_)) hrec
        rw [hsplit, List.append_assoc]
        exact (List.prefix_append _ _).isInfix
termination_by t.length

/-- A line without comments, also where its own qualifiers are gone, keeps its braces. -/
theorem braces_unqualify (hnames : HasBracelessNames ctx) (hopen : ¬"/*".toList <:+: line)
    (hseam : ¬ '/' :: (ctx.ns ++ ".*".toList) <:+: line) : braces (unqualify ctx line) = braces line := by
  have hcomments : stripBlockComments (stripQualifier ctx.ns .removed line) = stripQualifier ctx.ns .removed line :=
    stripBlockComments_of_none
      (Text.splitFirst?_eq_none_iff.2 fun h => (infix_of_infix_leftFrom none line h).elim hopen hseam)
  rw [unqualify, braces_trim, braces_foldl_stripQualifier (fun ns hns => hnames ns (List.mem_cons_of_mem _ hns)),
    hcomments, braces_stripQualifier (hnames ctx.ns List.mem_cons_self)]

/-- What starts with a slash in a rewritten line stands in the line itself. -/
theorem infix_of_infix_rewritten (h : '/' :: needle <:+: rewritten ctx raw) : '/' :: needle <:+: raw := by
  obtain ⟨front, front', tail, hraw, hrewritten, -, hfront'⟩ := exists_opening_rewritten ctx raw
  rw [hrewritten] at h
  rw [hraw]
  exact (Text.infix_of_infix_append hfront'.isFront.2.1 h).trans (List.suffix_append front tail).isInfix

theorem braces_of_adaptLine? (hnames : HasBracelessNames ctx) {adapted : AdaptedLine}
    (h : adaptLine? ctx raw = some adapted) (hopen : ¬"/*".toList <:+: raw)
    (hseam : ¬ '/' :: (ctx.ns ++ ".*".toList) <:+: raw) : braces adapted.text = braces raw := by
  rw [text_of_adaptLine? h, braces_unqualify hnames (fun h => hopen (infix_of_infix_rewritten h))
    (fun h => hseam (infix_of_infix_rewritten h)), braces_rewritten]

end

/-! ## Files -/

def IsSkipped (line : Text) : Prop := Text.trim line = [] ∨ "//".toList <+: Text.trim line

/-- The line has no comment marker, and does not open a module. -/
structure IsPlain (line : Text) : Prop where
  lineComment : ¬"//".toList <:+: line
  opensComment : ¬"/*".toList <:+: line
  closesComment : ¬"*/".toList <:+: line
  opensModule : ¬"declare module".toList <:+: line

instance (line : Text) : Decidable (IsSkipped line) := inferInstanceAs (Decidable (_ ∨ _))

instance (line : Text) : Decidable (IsPlain line) :=
  decidable_of_iff (¬"//".toList <:+: line ∧ ¬"/*".toList <:+: line ∧ ¬"*/".toList <:+: line ∧
      ¬"declare module".toList <:+: line)
    ⟨fun ⟨h1, h2, h3, h4⟩ => ⟨h1, h2, h3, h4⟩, fun ⟨h1, h2, h3, h4⟩ => ⟨h1, h2, h3, h4⟩⟩

/-- The lines of a declaration file with one ambient module, between blank lines and line comments. -/
inductive IsAmbient : List Text → Prop where
  | intro {above body below : List Text} {opening closing : Text} (skipped : ∀ line ∈ above ++ below, IsSkipped line)
    (opens : "declare module".toList <:+: opening) (opens' : braces opening = ['{'])
    (plain : ∀ line ∈ body, IsPlain line) (balanced : IsBalanced body.flatten) (closes : Text.trim closing = ['}']) :
    IsAmbient (above ++ opening :: (body ++ closing :: below))

def leftLines (ctx : Context) (raws : List Text) : List Text :=
  ((raws.filterMap (adaptLine? ctx)).map AdaptedLine.text).filter (· ≠ [])

section
variable {ctx : Context} {raw : Text} {raws raws' : List Text} {files : List Text} {file : Text}

theorem bodyLines_adaptFile (ctx : Context) (file : Text) :
    bodyLines (adaptFile ctx file) = dropModuleEnd (leftLines ctx (Text.lines file)) := rfl

theorem leftLines_append (ctx : Context) (raws raws' : List Text) :
    leftLines ctx (raws ++ raws') = leftLines ctx raws ++ leftLines ctx raws' := by
  rw [leftLines, List.filterMap_append, List.map_append, List.filter_append]
  rfl

theorem leftLines_cons_of_not_isKept (h : ¬IsKept raw) (raws : List Text) :
    leftLines ctx (raw :: raws) = leftLines ctx raws := by
  have hnone : adaptLine? ctx raw = none :=
    Option.eq_none_iff_forall_ne_some.2 fun adapted hadapted => h (isKept_of_adaptLine? hadapted)
  rw [leftLines, List.filterMap_cons_none hnone]
  rfl

theorem IsSkipped.not_isKept (h : IsSkipped raw) : ¬IsKept raw := fun hkept => h.elim hkept.1 hkept.2.1

theorem leftLines_of_isSkipped (h : ∀ line ∈ raws, IsSkipped line) : leftLines ctx raws = [] := by
  induction raws with
  | nil => rfl
  | cons raw raws ih =>
    rw [leftLines_cons_of_not_isKept (h raw List.mem_cons_self).not_isKept]
    exact ih fun line hline => h line (List.mem_cons_of_mem raw hline)

theorem IsPlain.isKept (h : IsPlain raw) (hne : Text.trim raw ≠ []) : IsKept raw := by
  obtain ⟨a, b, hsplit, -, -⟩ := Text.exists_trim raw
  have htrim : Text.trim raw <:+: raw := ⟨a, b, by rw [List.append_assoc, ← hsplit]⟩
  exact ⟨hne, fun hstart => h.lineComment (hstart.isInfix.trans htrim), h.opensModule⟩

theorem braces_leftLines (hnames : HasBracelessNames ctx) (hplain : ∀ line ∈ raws, IsPlain line)
    (hseams : ∀ line ∈ raws, IsKept line → ¬ '/' :: (ctx.ns ++ ".*".toList) <:+: line) :
    braces (leftLines ctx raws).flatten = braces raws.flatten := by
  have hflatten : ∀ raws, (leftLines ctx raws).flatten =
      ((raws.filterMap (adaptLine? ctx)).map AdaptedLine.text).flatten := fun raws => List.flatten_filter_ne_nil
  induction raws with
  | nil => rfl
  | cons raw raws ih =>
    have hraw := hplain raw List.mem_cons_self
    have ih := ih (fun line hline => hplain line (List.mem_cons_of_mem raw hline))
      fun line hline => hseams line (List.mem_cons_of_mem raw hline)
    rw [List.flatten_cons, braces_append, ← ih]
    by_cases hne : Text.trim raw = []
    · have hnone : braces raw = [] := by
        rw [← braces_trim, hne]
        rfl
      rw [leftLines_cons_of_not_isKept (IsSkipped.not_isKept (.inl hne)), hnone]
      rfl
    · have hkept := hraw.isKept hne
      obtain ⟨adapted, hadapted, -⟩ := exists_adaptLine?_of_isKept ctx hkept
      rw [hflatten, hflatten, List.filterMap_cons_some hadapted, List.map_cons, List.flatten_cons, braces_append,
        braces_of_adaptLine? hnames hadapted hraw.opensComment (hseams raw List.mem_cons_self hkept)]

/-! ## The closing brace -/

theorem notMem_of_trim {c : Char} (h : Text.trim raw = ['}']) (hblank : Text.isBlank c = false) (hc : c ≠ '}') :
    c ∉ raw := by
  obtain ⟨a, b, hsplit, ha, hb⟩ := Text.exists_trim raw
  rw [hsplit, h]
  refine List.not_mem_append (IsBlanks.notMem ha hblank) (List.not_mem_append ?_ (IsBlanks.notMem hb hblank))
  exact fun hmem => hc (List.mem_singleton.1 hmem)

theorem isKept_of_trim (h : Text.trim raw = ['}']) : IsKept raw := by
  refine ⟨by rw [h]; exact List.cons_ne_nil _ _, by rw [h]; decide, fun hwithin => ?_⟩
  exact notMem_of_trim h (c := 'd') (by decide) (by decide) (hwithin.subset (by decide))

theorem rewritten_of_trim (h : Text.trim raw = ['}']) : rewritten ctx raw = raw := by
  rw [rewritten]
  split
  · next name line hline =>
    obtain ⟨header, hheader⟩ := exists_isHeaderOf_of_exportHeader? hline
    cases hheader with
    | @intro indent gap after indented apart word opens declared =>
      obtain ⟨c, hc⟩ := List.exists_mem_of_ne_nil name word.1
      have hword := word.2 c hc
      refine absurd (List.mem_append_right _ (List.mem_append_right _ (List.mem_append_right _
        (List.mem_append_left _ hc)))) (notMem_of_trim h (Text.isBlank_of_isWordChar hword) ?_)
      rintro rfl
      exact absurd hword (by decide)
  · rfl

theorem foldl_stripQualifier_of_notMem {line : Text} (h : '.' ∉ line) (names : List Namespace) :
    names.foldl (fun line ns => stripQualifier ns .kept line) line = line := by
  induction names with
  | nil => rfl
  | cons ns names ih => rw [List.foldl_cons, stripQualifier_of_notMem h, ih]

theorem leftLines_cons_of_trim (h : Text.trim raw = ['}']) (raws : List Text) :
    leftLines ctx (raw :: raws) = ['}'] :: leftLines ctx raws := by
  obtain ⟨adapted, hadapted, -⟩ := exists_adaptLine?_of_isKept ctx (isKept_of_trim h)
  have htext : adapted.text = ['}'] := by
    rw [text_of_adaptLine? hadapted, rewritten_of_trim h, unqualify,
      stripQualifier_of_notMem (notMem_of_trim h (by decide) (by decide)),
      stripBlockComments_of_not_mem (notMem_of_trim h (by decide) (by decide)),
      foldl_stripQualifier_of_notMem (notMem_of_trim h (by decide) (by decide)), h]
  rw [leftLines, List.filterMap_cons_some hadapted, List.map_cons, htext, List.filter_cons_of_pos (by decide)]
  rfl

/-- The module lines of a file with one ambient module are those of its body. -/
theorem IsAmbient.isBalanced (hfile : IsAmbient (Text.lines file)) (hnames : HasBracelessNames ctx)
    (hseams : ∀ line ∈ Text.lines file, IsKept line → ¬ '/' :: (ctx.ns ++ ".*".toList) <:+: line) :
    IsBalanced (bodyLines (adaptFile ctx file)).flatten := by
  rw [bodyLines_adaptFile]
  generalize Text.lines file = raws at hfile hseams
  cases hfile with
  | @intro above body below opening closing skipped opens opens' plain balanced closes =>
    obtain ⟨habove, hbelow⟩ := List.forall_mem_append.1 skipped
    have hleft : leftLines ctx (above ++ opening :: (body ++ closing :: below)) = leftLines ctx body ++ [['}']] := by
      rw [leftLines_append, leftLines_of_isSkipped habove, leftLines_cons_of_not_isKept fun hkept => hkept.2.2 opens,
        leftLines_append, leftLines_cons_of_trim closes, leftLines_of_isSkipped hbelow]
      rfl
    have hbraces := braces_leftLines hnames plain fun line hline =>
      hseams line (List.mem_append_right _ (List.mem_cons_of_mem _ (List.mem_append_left _ hline)))
    rw [hleft, dropModuleEnd, if_pos List.getLast?_concat, List.dropLast_concat, isBalanced_congr hbraces]
    exact balanced

end

/-! ## The module -/

theorem isBalanced_flatten {ts : List Text} (h : ∀ t ∈ ts, IsBalanced t) : IsBalanced ts.flatten := by
  induction ts with
  | nil => rfl
  | cons t ts ih =>
    exact (h t List.mem_cons_self).append (ih fun u hu => h u (List.mem_cons_of_mem t hu))

section
variable {ctx : Context} {files : List Text}

theorem braces_modulePath (hproject : braces ctx.project = []) {ns : Namespace} (hns : braces ns = []) :
    braces (ctx.modulePath ns) = [] := by
  rw [Context.modulePath, braces_append, hproject]
  exact hns

theorem isBalanced_crossImport {line : Text} (hproject : braces ctx.project = []) (hnames : HasBracelessNames ctx)
    (h : line ∈ crossImports ctx) : IsBalanced line := by
  obtain ⟨edge, hedge, hline⟩ := List.mem_flatMap.1 h
  obtain ⟨name, hname, rfl⟩ := List.mem_map.1 hline
  have hword : braces name = [] := braces_eq_nil fun c hc =>
    not_isBrace_of_isWordChar (isWordChar_of_mem_referencedNames (NameSet.mem_def.2 hname) c hc)
  have htarget : edge.target ∈ ctx.includes.namespaces := NameSet.mem_ofList.2 (List.mem_map_of_mem hedge)
  have hpath := braces_modulePath hproject (hnames _ (List.mem_cons_of_mem _ (NameSet.mem_def.1 htarget)))
  have hbraces : braces (crossImport (ctx.modulePath edge.target) name) = braces "\x7b\x7d".toList := by
    rw [crossImport_eq, braces_append, braces_append, braces_append, braces_append, hword, hpath]
    rfl
  exact (isBalanced_congr hbraces).2 (by decide)

end

/-- The brace at the end of the first line `first` is the first one of the text, and is closed by the last line and not
earlier. -/
def IsEnclosed (first text : Text) : Prop :=
  ∃ opening inner, first = opening ++ ['{'] ∧ braces opening = [] ∧ IsBalanced (Text.unlines inner) ∧
    text = Text.unlines (first :: (inner ++ [['}']]))

theorem IsEnclosed.isBalanced {first text : Text} (h : IsEnclosed first text) : IsBalanced text := by
  obtain ⟨opening, inner, rfl, hopening, hinner, rfl⟩ := h
  refine (isBalanced_congr ?_).2 hinner.enclose
  have hcons : ∀ t, braces ('{' :: (t ++ ['}'])) = '{' :: (braces t ++ ['}']) := fun t => by
    rw [← List.singleton_append, braces_append, braces_append]
    rfl
  rw [hcons, braces_unlines, braces_unlines, List.flatten_cons, List.flatten_append, braces_append, braces_append,
    braces_append, hopening]
  rfl

/-- The module of declaration files with one balanced ambient module each is balanced: the brace at the end of its first
line is closed by its last line and not earlier. No line of the files has a comment, also not where a qualifier of the
own namespace is gone. -/
theorem isEnclosed_composeDeclarations {ctx : Context} {files : List Text} (hproject : braces ctx.project = [])
    (hnames : HasBracelessNames ctx)
    (hfiles : ∀ file ∈ files, (∀ line ∈ Text.lines file, IsSkipped line) ∨ IsAmbient (Text.lines file))
    (hseams : ∀ file ∈ files, ∀ line ∈ Text.lines file, IsKept line → ¬ '/' :: (ctx.ns ++ ".*".toList) <:+: line) :
    IsEnclosed (moduleLine ctx) (composeDeclarations ctx files).text ∧
      IsBalanced (composeDeclarations ctx files).text := by
  have hbodies : ∀ body ∈ (files.map (adaptFile ctx)).map fun adapted => (bodyLines adapted).flatten,
      IsBalanced body := by
    intro body hbody
    obtain ⟨_, hadapted, rfl⟩ := List.mem_map.1 hbody
    obtain ⟨file, hfile, rfl⟩ := List.mem_map.1 hadapted
    rcases hfiles file hfile with hskipped | hambient
    · rw [bodyLines_adaptFile, leftLines_of_isSkipped hskipped]
      rfl
    · exact hambient.isBalanced hnames (hseams file hfile)
  have himports : IsBalanced (crossImports ctx).flatten :=
    isBalanced_flatten fun line hline => isBalanced_crossImport hproject hnames hline
  have hinner : IsBalanced
      (Text.unlines (runtimeImport :: (crossImports ctx ++ (files.map (adaptFile ctx)).flatMap bodyLines))) := by
    have hruntime : IsBalanced runtimeImport := by decide
    rw [isBalanced_congr (braces_unlines _), List.flatten_cons, List.flatten_append, List.flatMap, List.flatten_flatten,
      List.map_map]
    exact hruntime.append (himports.append (isBalanced_flatten hbodies))
  have hopening : braces ("declare module '".toList ++ (ctx.modulePath ctx.ns ++ "' ".toList)) = [] := by
    rw [braces_append, braces_append, braces_modulePath hproject (hnames ctx.ns List.mem_cons_self)]
    rfl
  have hparts : ∀ a b c d : Text, [a, b, c ++ d].flatten = a ++ (b ++ c) ++ d := by simp
  have hfirst : moduleLine ctx = "declare module '".toList ++ (ctx.modulePath ctx.ns ++ "' ".toList) ++ ['{'] :=
    hparts _ _ "' ".toList ['{']
  have hlines : ∀ (first second : Text) (imports bodies last : List Text),
      [first, second] ++ imports ++ bodies ++ last = first :: (second :: (imports ++ bodies) ++ last) :=
    fun _ _ _ _ _ => rfl
  have henclosed : IsEnclosed (moduleLine ctx) (composeDeclarations ctx files).text :=
    ⟨_, _, hfirst, hopening, hinner, congrArg Text.unlines (hlines ..)⟩
  exact ⟨henclosed, henclosed.isBalanced⟩

/-- A file with a comment above its module, and one with nothing but comments. -/
theorem isEnclosed_composeDeclarations_color :
    let ctx := demo "enum Color \x7b\x7d".toList
    let files := ["// made from demo\n\ndeclare module demo \x7b\n  enum Color \x7b\n  \x7d\n\x7d\n".toList,
      "//\n\n".toList]
    IsEnclosed (moduleLine ctx) (composeDeclarations ctx files).text ∧
      IsBalanced (composeDeclarations ctx files).text := by
  intro ctx files
  have hlines : Text.lines "// made from demo\n\ndeclare module demo \x7b\n  enum Color \x7b\n  \x7d\n\x7d\n".toList =
      ["// made from demo".toList, []] ++ "declare module demo \x7b".toList ::
        (["  enum Color \x7b".toList, "  \x7d".toList] ++ "\x7d".toList :: []) := by
    decide +kernel
  have hfiles : ∀ file ∈ files, (∀ line ∈ Text.lines file, IsSkipped line) ∨ IsAmbient (Text.lines file) := by
    intro file hfile
    rcases List.mem_cons.1 hfile with rfl | hfile
    · rw [hlines]
      exact .inr (.intro (by decide +kernel) (by decide +kernel) (by decide +kernel) (by decide +kernel)
        (by decide +kernel) (by decide +kernel))
    · rw [List.mem_singleton.1 hfile]
      exact .inl (by decide +kernel)
  have hseams : ∀ file ∈ files, ∀ line ∈ Text.lines file, IsKept line → ¬ '/' :: (ctx.ns ++ ".*".toList) <:+: line := by
    unfold IsKept
    decide +kernel
  exact isEnclosed_composeDeclarations (by decide) (by unfold HasBracelessNames; decide) hfiles hseams

/-- Own qualifiers between a slash and a star leave the markers of a comment, which is removed with the brace in it. -/
theorem unbalanced_behind_qualifiers :
    let ctx : Context := ⟨"app".toList, .ofText [] [], "x".toList, ⟨∅, ∅, ∅, ∅⟩, .empty⟩
    let file := "declare module x \x7b\n  /x.*\x7b*x./\n  \x7d\n\x7d\n".toList
    braces ctx.project = [] ∧ HasBracelessNames ctx ∧ IsAmbient (Text.lines file) ∧
      (composeDeclarations ctx [file]).text =
        "declare module 'app/x' \x7b\nimport Thrift from 'thrift/Thrift';\n\x7d\n\x7d\n".toList ∧
      ¬IsBalanced (composeDeclarations ctx [file]).text := by
  intro ctx file
  have hlines : Text.lines file = [] ++ "declare module x \x7b".toList ::
      (["  /x.*\x7b*x./".toList, "  \x7d".toList] ++ "\x7d".toList :: []) := by
    decide +kernel
  have hambient : IsAmbient (Text.lines file) := by
    rw [hlines]
    exact .intro (by decide +kernel) (by decide +kernel) (by decide +kernel) (by decide +kernel) (by decide +kernel)
      (by decide +kernel)
  have htext : (composeDeclarations ctx [file]).text =
      "declare module 'app/x' \x7b\nimport Thrift from 'thrift/Thrift';\n\x7d\n\x7d\n".toList := by
    decide +kernel
  refine ⟨by decide, by unfold HasBracelessNames; decide, hambient, htext, ?_⟩
  rw [htext]
  decide +kernel

end ThriftModules.Module
