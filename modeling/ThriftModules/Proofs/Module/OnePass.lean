import ThriftModules.Module.Declarations
import ThriftModules.Proofs.Module.Removal

/-!
# The qualifiers of a declaration line, pass by pass and in one pass

* `passes` : the line after the pass for the own namespace and the passes for the included ones, each on what the last
  one left, as one removal (`unqualify_eq`);
* `onePass` : the line without the longest qualifier at the start of each path;
* `passes_eq_onePass_iff` : both are the same exactly if both take the same at each path start;
* `passes_reference` : a reference behind a namespace that no other one is a part of loses its qualifier;
* `kept_line_eq_onePass_iff` : what this says about the lines of a declaration module.

The passes take more or less than the longest qualifier where one namespace is followed by another: of
`pkg.common.User` in a module of `pkg` that includes `pkg.common` they leave `common.User`.
-/

namespace ThriftModules.Module

set_option autoImplicit false

/-! ## Both removals -/

/-- What the passes take at the start of a path: the own qualifier, and of what is left the included ones in order. -/
def passLength (ctx : Context) : Option Char → Text → Nat :=
  ctx.includes.namespaces.toList.foldl (fun len ns => andThen len (qualifierLength ns .kept))
    (qualifierLength ctx.ns .removed)

def passes (ctx : Context) (line : Text) : Text := removeAt (passLength ctx) line

/-- The longest of the given namespaces that `t` starts with as a qualifier. -/
def longestAt? (t : Text) : List Namespace → Option Namespace
  | [] => none
  | ns :: rest =>
    if Text.startsWith t (ns ++ ['.']) then
      match longestAt? t rest with
      | some other => if ns.length < other.length then some other else some ns
      | none => some ns
    else longestAt? t rest

/-- What one pass takes at the start of a path: the longest qualifier, if it is not an included one behind a quote. -/
def onePassLength (ctx : Context) (before : Option Char) (t : Text) : Nat :=
  match longestAt? t (ctx.ns :: ctx.includes.namespaces.toList) with
  | some ns => if ns ≠ ctx.ns ∧ before.any Text.isQuote then 0 else ns.length + 1
  | none => 0

/-- The line without the longest qualifier at the start of each path. -/
def onePass (ctx : Context) (line : Text) : Text := removeAt (onePassLength ctx) line

def HasDottedNames (ctx : Context) : Prop :=
  ∀ ns ∈ ctx.ns :: ctx.includes.namespaces.toList, ∀ c ∈ ns, Idl.isNamespaceChar c = true

theorem isPathChar_of_isNamespaceChar {c : Char} (h : Idl.isNamespaceChar c = true) : isPathChar c = true := by
  simp only [Idl.isNamespaceChar, isPathChar, Text.isIdentChar, Bool.or_eq_true] at h ⊢
  exact h.imp_left Or.inl

theorem HasDottedNames.isPathChar {ctx : Context} (h : HasDottedNames ctx) :
    ∀ ns ∈ ctx.ns :: ctx.includes.namespaces.toList, ∀ c ∈ ns, isPathChar c = true :=
  fun ns hns c hc => isPathChar_of_isNamespaceChar (h ns hns c hc)

/-! ## The passes are one removal -/

theorem isRemoval_foldl {len : Option Char → Text → Nat} (h : IsRemoval len) {names : List Namespace}
    (hnames : ∀ ns ∈ names, ∀ c ∈ ns, isPathChar c = true) :
    IsRemoval (names.foldl (fun len ns => andThen len (qualifierLength ns .kept)) len) := by
  induction names generalizing len with
  | nil => exact h
  | cons ns names ih =>
    exact ih (h.andThen (isRemoval_qualifierLength (hnames ns (by simp)))) fun m hm => hnames m (by simp [hm])

theorem foldl_stripQualifier {len : Option Char → Text → Nat} (h : IsRemoval len) {names : List Namespace}
    (hnames : ∀ ns ∈ names, ∀ c ∈ ns, isPathChar c = true) (line : Text) :
    names.foldl (fun line ns => stripQualifier ns .kept line) (removeAt len line) =
      removeAt (names.foldl (fun len ns => andThen len (qualifierLength ns .kept)) len) line := by
  induction names generalizing len with
  | nil => rfl
  | cons ns names ih =>
    have hns := hnames ns (by simp)
    have hremoval : IsRemoval (qualifierLength ns .kept) := isRemoval_qualifierLength hns
    have hstep : stripQualifier ns .kept (removeAt len line) =
        removeAt (andThen len (qualifierLength ns .kept)) line := by
      rw [stripQualifier_eq hns]
      exact removeFrom_removeFrom h hremoval rfl line
    rw [List.foldl_cons, List.foldl_cons, hstep]
    exact ih (h.andThen hremoval) fun m hm => hnames m (by simp [hm])

theorem isRemoval_passLength {ctx : Context} (h : HasDottedNames ctx) : IsRemoval (passLength ctx) :=
  isRemoval_foldl (isRemoval_qualifierLength (h.isPathChar ctx.ns (by simp))) fun ns hns =>
    h.isPathChar ns (by simp [hns])

/-- Without a block comment that closes after the first pass, the passes are one removal. -/
theorem unqualify_eq {ctx : Context} (h : HasDottedNames ctx) {line : Text}
    (hcomment : stripBlockComments (stripQualifier ctx.ns .removed line) = stripQualifier ctx.ns .removed line) :
    unqualify ctx line = Text.trim (passes ctx line) := by
  have hown := h.isPathChar ctx.ns (by simp)
  rw [unqualify, hcomment, stripQualifier_eq hown,
    foldl_stripQualifier (isRemoval_qualifierLength hown) fun ns hns => h.isPathChar ns (by simp [hns])]
  rfl

/-! ## The longest qualifier -/

theorem longestAt?_cons (t : Text) (ns : Namespace) (names : List Namespace) :
    longestAt? t (ns :: names) =
      if Text.startsWith t (ns ++ ['.']) then
        match longestAt? t names with
        | some other => if ns.length < other.length then some other else some ns
        | none => some ns
      else longestAt? t names := rfl

theorem startsWith_of_longestAt? {t : Text} {names : List Namespace} {ns : Namespace}
    (h : longestAt? t names = some ns) : Text.startsWith t (ns ++ ['.']) = true := by
  induction names with
  | nil => cases h
  | cons m names ih =>
    rw [longestAt?_cons] at h
    split at h
    · next hm =>
      split at h
      · next other ho =>
        split at h
        · exact ih (ho.trans h)
        · cases h; exact hm
      · cases h; exact hm
    · exact ih h

theorem longestAt?_append_cons {t r : Text} {c : Char} {names : List Namespace}
    (hnames : ∀ ns ∈ names, ∀ c ∈ ns, isPathChar c = true) (hc : isPathChar c = false) :
    longestAt? (t ++ c :: r) names = longestAt? t names := by
  induction names with
  | nil => rfl
  | cons n names ih =>
    rw [longestAt?_cons, longestAt?_cons, startsWith_qualifier (hnames n (by simp)) hc,
      ih fun m hm => hnames m (by simp [hm])]

theorem isRemoval_onePassLength {ctx : Context} (h : HasDottedNames ctx) : IsRemoval (onePassLength ctx) where
  le before t := by
    rw [onePassLength]
    split
    · next ns hns =>
      split
      · exact Nat.zero_le _
      · have hle := (Text.startsWith_iff.1 (startsWith_of_longestAt? hns)).length_le
        rwa [List.length_append, List.length_singleton] at hle
    · exact Nat.zero_le _
  inPath before t c r hc := by
    rw [onePassLength, longestAt?_append_cons h.isPathChar hc]
    rfl

/-- The passes leave what one pass leaves exactly if they take the longest qualifier at the start of each path. -/
theorem passes_eq_onePass_iff {ctx : Context} (h : HasDottedNames ctx) (line : Text) :
    passes ctx line = onePass ctx line ↔
      ∀ p ∈ pathStarts none line, passLength ctx p.1 p.2 = onePassLength ctx p.1 p.2 :=
  removeFrom_eq_iff (isRemoval_passLength h) (isRemoval_onePassLength h) rfl line

/-! ## References -/

/-- No other namespace is a part of `ns` that ends at a dot or at its end. -/
def IsSeparate (ctx : Context) (ns : Namespace) : Prop :=
  ∀ other ∈ ctx.ns :: ctx.includes.namespaces.toList, other ≠ ns → ¬ other ++ ['.'] <+: ns ++ ['.']

/-- A text in front of which a path starts outside quotes. -/
def endsOutside (t : Text) : Bool := t.getLast?.all fun c => !isPathChar c && !Text.isQuote c

theorem startsWith_reference {m ns name : Text} (hname : ∀ c ∈ name, Text.isIdentChar c = true)
    (h : Text.startsWith (ns ++ '.' :: name) (m ++ ['.']) = true) : m ++ ['.'] <+: ns ++ ['.'] := by
  have hm := Text.startsWith_iff.1 h
  have hns : ns ++ ['.'] <+: ns ++ '.' :: name := ⟨name, by simp⟩
  rcases Nat.le_total (m ++ ['.']).length (ns ++ ['.']).length with hle | hle
  · exact List.prefix_of_prefix_length_le hm hns hle
  · -- a longer qualifier would have its last dot in the name
    obtain ⟨s, hs⟩ := List.prefix_of_prefix_length_le hns hm hle
    obtain ⟨r, hr⟩ := hm
    rw [← hs, List.append_assoc, List.append_assoc] at hr
    have hname' : s ++ r = name := (List.cons.inj (List.append_cancel_left hr)).2
    rcases List.eq_nil_or_concat s with rfl | ⟨init, last, rfl⟩
    · rw [List.append_nil] at hs
      exact hs ▸ List.prefix_refl _
    · have hdot : last = '.' := by
        have hlast := congrArg List.getLast? hs
        rw [List.concat_eq_append, ← List.append_assoc, List.getLast?_concat, List.getLast?_concat] at hlast
        exact Option.some.inj hlast
      have hident := hname last (by rw [← hname']; simp)
      rw [hdot] at hident
      exact absurd hident (by decide)

theorem not_startsWith_name {m name : Text} (hname : ∀ c ∈ name, Text.isIdentChar c = true) :
    Text.startsWith name (m ++ ['.']) = false := by
  rw [← Bool.not_eq_true, Text.startsWith_iff]
  rintro ⟨r, hr⟩
  have hdot := hname '.' (by rw [← hr]; simp)
  exact absurd hdot (by decide)

theorem foldl_andThen_of_zero {len : Option Char → Text → Nat} {names : List Namespace} {before : Option Char}
    {t : Text}
    (h : ∀ ns ∈ names, qualifierLength ns .kept before (t.drop (len before t)) = 0) :
    names.foldl (fun len ns => andThen len (qualifierLength ns .kept)) len before t = len before t := by
  induction names generalizing len with
  | nil => rfl
  | cons ns names ih =>
    have hns : andThen len (qualifierLength ns .kept) before t = len before t := by
      rw [andThen, h ns (by simp), Nat.add_zero]
    rw [List.foldl_cons, ih fun m hm => ?_, hns]
    rw [hns]
    exact h m (by simp [hm])

/-- At a reference behind a separate included namespace the passes take its qualifier. -/
theorem passLength_reference {ctx : Context} {ns : Namespace} (hns : ns ∈ ctx.includes.namespaces)
    (hsep : IsSeparate ctx ns) {name : Text} (hname : ∀ c ∈ name, Text.isIdentChar c = true) {before : Option Char}
    (hquote : before.any Text.isQuote = false) :
    passLength ctx before (ns ++ '.' :: name) = ns.length + 1 := by
  have htaken : ∀ quoted, qualifierLength ns quoted before (ns ++ '.' :: name) = ns.length + 1 := by
    intro quoted
    have hstarts : Text.startsWith (ns ++ '.' :: name) (ns ++ ['.']) = true := Text.startsWith_iff.2 ⟨name, by simp⟩
    rw [qualifierLength, hstarts, hquote, Bool.and_false]
    rfl
  have hkept : ∀ other ∈ ctx.ns :: ctx.includes.namespaces.toList, other ≠ ns →
      ∀ quoted, qualifierLength other quoted before (ns ++ '.' :: name) = 0 := by
    intro other ho hne quoted
    have hstarts : Text.startsWith (ns ++ '.' :: name) (other ++ ['.']) = false := by
      rw [← Bool.not_eq_true]
      exact fun h => hsep other ho hne (startsWith_reference hname h)
    rw [qualifierLength, hstarts]
    rfl
  have hdrop : (ns ++ '.' :: name).drop (ns.length + 1) = name := by
    rw [← List.drop_drop, List.drop_left]
    rfl
  have hname0 : ∀ other, qualifierLength other .kept before name = 0 := by
    intro other
    rw [qualifierLength, not_startsWith_name hname]
    rfl
  rw [passLength]
  by_cases hown : ctx.ns = ns
  · rw [foldl_andThen_of_zero fun other _ => ?_, hown, htaken]
    rw [hown, htaken, hdrop, hname0]
  · -- the passes before that of `ns` take nothing, and those after it find the name alone
    obtain ⟨front, back, hlist, hfront⟩ := List.eq_append_cons_of_mem (NameSet.mem_def.1 hns)
    have hother : ∀ other ∈ front, other ≠ ns := fun other ho e => hfront (e ▸ ho)
    have hnone : qualifierLength ctx.ns .removed before (ns ++ '.' :: name) = 0 := hkept ctx.ns (by simp) hown .removed
    have hzero : front.foldl (fun len ns => andThen len (qualifierLength ns .kept)) (qualifierLength ctx.ns .removed)
        before (ns ++ '.' :: name) = 0 := by
      rw [foldl_andThen_of_zero fun other ho => ?_, hnone]
      rw [hnone, List.drop_zero]
      exact hkept other (by simp [hlist, ho]) (hother other ho) .kept
    rw [hlist, List.foldl_append, List.foldl_cons, foldl_andThen_of_zero fun other _ => ?_]
    · rw [andThen, hzero, List.drop_zero, htaken, Nat.zero_add]
    · rw [andThen, hzero, List.drop_zero, htaken, Nat.zero_add, hdrop, hname0]

/-- What stands in front of a position outside paths and what stands behind are passed on their own. -/
theorem removeFrom_append {len : Option Char → Text → Nat} (h : IsRemoval len) {before : Option Char}
    (hb : startsPath before = true) {t : Text} (ht : startsPath (t.getLast?.or before) = true) (r : Text) :
    removeFrom len before 0 (t ++ r) = removeFrom len before 0 t ++ removeFrom len (t.getLast?.or before) 0 r := by
  revert ht
  refine path_induction (motive := fun before t => startsPath (t.getLast?.or before) = true →
    removeFrom len before 0 (t ++ r) = removeFrom len before 0 t ++ removeFrom len (t.getLast?.or before) 0 r)
    ?_ ?_ before t hb
  · intro before u hb hu ht
    rcases List.eq_nil_or_concat u with rfl | ⟨init, last, rfl⟩
    · rfl
    · rw [List.concat_eq_append, List.getLast?_concat, Option.some_or, startsPath_some, hu last (by simp)] at ht
      cases ht
  · intro before u c s hb hu hc ih ht
    have hlast : (u ++ c :: s).getLast?.or before = s.getLast?.or (some c) := by
      rw [List.getLast?_append, List.getLast?_cons]
      cases s.getLast? <;> rfl
    rw [hlast] at ht ⊢
    rw [List.append_assoc, List.cons_append, removeFrom_run_cons h hu hb hc, removeFrom_run_cons h hu hb hc, ih ht,
      List.append_assoc, List.cons_append]

/-- A reference behind a separate included namespace becomes its name, whatever stands around it. -/
theorem passes_reference {ctx : Context} (h : HasDottedNames ctx) {ns : Namespace} (hns : ns ∈ ctx.includes.namespaces)
    (hsep : IsSeparate ctx ns) {name : Text} (hname : ∀ c ∈ name, Text.isIdentChar c = true) {t : Text}
    (ht : endsOutside t = true) {r : Text} (hr : r.head?.any isPathChar = false) :
    passes ctx (t ++ (ns ++ '.' :: name ++ r)) = passes ctx t ++ (name ++ passes ctx r) := by
  have hremoval := isRemoval_passLength h
  have hfront : startsPath (t.getLast?.or none) = true ∧ (t.getLast?.or none).any Text.isQuote = false := by
    rw [endsOutside] at ht
    cases hl : t.getLast? with
    | none => exact ⟨rfl, rfl⟩
    | some c =>
      rw [hl, Option.all_some, Bool.and_eq_true, Bool.not_eq_true', Bool.not_eq_true'] at ht
      rw [Option.some_or, startsPath_some, ht.1, Option.any_some]
      exact ⟨rfl, ht.2⟩
  have hpath : ∀ c ∈ ns ++ '.' :: name, isPathChar c = true := by
    intro c hc
    rcases List.mem_append.1 hc with hc | hc
    · exact h.isPathChar ns (by simp [NameSet.mem_def.1 hns]) c hc
    · rcases List.mem_cons.1 hc with rfl | hc
      · decide
      · rw [isPathChar, hname c hc]
        rfl
  have hdrop : (ns ++ '.' :: name).drop (ns.length + 1) = name := by
    rw [← List.drop_drop, List.drop_left]
    rfl
  have hrest : r = [] ∨ ∃ c s, r = c :: s ∧ isPathChar c = false := by
    cases r with
    | nil => exact Or.inl rfl
    | cons c s => exact Or.inr ⟨c, s, rfl, by simpa using hr⟩
  have hbehind : ∀ before, removeFrom (passLength ctx) before 0 r = passes ctx r := by
    intro before
    rcases hrest with rfl | ⟨c, s, rfl, hc⟩
    · rfl
    · rw [passes, removeAt, removeFrom_cons hremoval hc, removeFrom_cons hremoval hc]
  rw [passes, removeAt, removeFrom_append hremoval rfl hfront.1, removeFrom_run hremoval hpath hfront.1 hrest,
    passLength_reference hns hsep hname hfront.2, hdrop, hbehind]
  rfl

/-! ## The lines of a declaration module -/

def rewritten (ctx : Context) (raw : Text) : Text :=
  match exportHeader? ctx.symbols raw with
  | some (_, line) => line
  | none => raw

theorem stripBlockComments_of_none {line : Text} (h : Text.splitFirst? "/*".toList line = none) :
    stripBlockComments line = line := by
  rw [stripBlockComments]
  split
  · rfl
  · next gap opened hs =>
    rw [h] at hs
    cases hs

theorem stripBlockComments_of_not_mem {line : Text} (h : '*' ∉ line) : stripBlockComments line = line :=
  stripBlockComments_of_none (Text.splitFirst?_of_not_mem (c := '*') (by decide) h)

theorem text_of_adaptLine? {ctx : Context} {raw : Text} {adapted : AdaptedLine}
    (h : adaptLine? ctx raw = some adapted) :
    adapted.text = unqualify ctx (rewritten ctx raw) := by
  unfold adaptLine? at h
  unfold rewritten
  split at h
  · cases h
  · cases he : exportHeader? ctx.symbols raw with
    | none =>
      rw [he] at h
      cases h
      rfl
    | some header =>
      rw [he] at h
      cases h
      rfl

/-- A kept line without block comments is what its passes leave. That is the line without the longest qualifiers exactly
if at each path start the passes take the longest one, and a reference behind a separate included namespace becomes its
name. -/
theorem kept_line_eq_onePass_iff {ctx : Context} {raw : Text} {adapted : AdaptedLine} (h : HasDottedNames ctx)
    (hkept : adaptLine? ctx raw = some adapted)
    (hcomment : stripBlockComments (stripQualifier ctx.ns .removed (rewritten ctx raw)) =
      stripQualifier ctx.ns .removed (rewritten ctx raw)) :
    adapted.text = Text.trim (passes ctx (rewritten ctx raw)) ∧
      (passes ctx (rewritten ctx raw) = onePass ctx (rewritten ctx raw) ↔
        ∀ p ∈ pathStarts none (rewritten ctx raw), passLength ctx p.1 p.2 = onePassLength ctx p.1 p.2) ∧
      ∀ ns ∈ ctx.includes.namespaces, IsSeparate ctx ns → ∀ t name r,
        rewritten ctx raw = t ++ (ns ++ '.' :: name ++ r) →
        (∀ c ∈ name, Text.isIdentChar c = true) → endsOutside t = true → r.head?.any isPathChar = false →
        adapted.text = Text.trim (passes ctx t ++ (name ++ passes ctx r)) := by
  have htext : adapted.text = Text.trim (passes ctx (rewritten ctx raw)) :=
    (text_of_adaptLine? hkept).trans (unqualify_eq h hcomment)
  refine ⟨htext, passes_eq_onePass_iff h _, ?_⟩
  intro ns hns hsep t name r hline hname ht hr
  rw [htext, hline, passes_reference h hns hsep hname ht hr]

def commonUser (ns : Namespace) : Context :=
  ⟨"app".toList, .ofText [] [], ns, ⟨∅, ∅, ∅, ∅⟩,
    .ofEdges [⟨"common".toList, "common.thrift".toList, "pkg.common".toList⟩]⟩

theorem kept_line_of_sibling :
    (adaptLine? (commonUser "pkg.model".toList) "  user: pkg.common.User;".toList).map AdaptedLine.text =
        some "user: User;".toList ∧
      passes (commonUser "pkg.model".toList) "  user: pkg.common.User;".toList =
        onePass (commonUser "pkg.model".toList) "  user: pkg.common.User;".toList := by
  have hnames : HasDottedNames (commonUser "pkg.model".toList) := by
    unfold HasDottedNames
    decide
  have hseparate : IsSeparate (commonUser "pkg.model".toList) "pkg.common".toList := by
    unfold IsSeparate
    decide
  have hkept : adaptLine? (commonUser "pkg.model".toList) "  user: pkg.common.User;".toList =
      some ⟨none, unqualify (commonUser "pkg.model".toList) "  user: pkg.common.User;".toList⟩ := rfl
  have hcomment : stripBlockComments (stripQualifier "pkg.model".toList .removed "  user: pkg.common.User;".toList) =
      stripQualifier "pkg.model".toList .removed "  user: pkg.common.User;".toList := by
    rw [stripQualifier_eq (by decide)]
    exact stripBlockComments_of_not_mem (by decide +kernel)
  obtain ⟨-, hiff, hreference⟩ := kept_line_eq_onePass_iff hnames hkept hcomment
  have htext := hreference "pkg.common".toList (by decide) hseparate "  user: ".toList "User".toList ";".toList rfl
    (by decide) (by decide) (by decide)
  have huser : Text.trim (passes (commonUser "pkg.model".toList) "  user: ".toList ++
      ("User".toList ++ passes (commonUser "pkg.model".toList) ";".toList)) = "user: User;".toList := by
    decide +kernel
  rw [hkept, Option.map_some, htext, huser]
  exact ⟨rfl, hiff.2 (by decide +kernel)⟩

/-- The own namespace is taken from the front of the included one. -/
theorem kept_line_of_nested :
    (adaptLine? (commonUser "pkg".toList) "  owner: pkg.common.User;".toList).map AdaptedLine.text =
        some "owner: common.User;".toList ∧
      Text.trim (onePass (commonUser "pkg".toList) "  owner: pkg.common.User;".toList) = "owner: User;".toList := by
  have hnames : HasDottedNames (commonUser "pkg".toList) := by
    unfold HasDottedNames
    decide
  have hkept : adaptLine? (commonUser "pkg".toList) "  owner: pkg.common.User;".toList =
      some ⟨none, unqualify (commonUser "pkg".toList) "  owner: pkg.common.User;".toList⟩ := rfl
  have hcomment : stripBlockComments (stripQualifier "pkg".toList .removed "  owner: pkg.common.User;".toList) =
      stripQualifier "pkg".toList .removed "  owner: pkg.common.User;".toList := by
    rw [stripQualifier_eq (by decide)]
    exact stripBlockComments_of_not_mem (by decide +kernel)
  have hpasses : Text.trim (passes (commonUser "pkg".toList) "  owner: pkg.common.User;".toList) =
      "owner: common.User;".toList := by
    decide +kernel
  rw [hkept, Option.map_some, unqualify_eq hnames hcomment, hpasses]
  exact ⟨rfl, by decide +kernel⟩

end ThriftModules.Module
