import ThriftModules.Proofs.Module.Accounts
import ThriftModules.Proofs.Module.Foreign

/-!
# Which blocks an assignment goes into

* `Emits` : the lines that the block of a declared name has from one assignment of the script;
* `Emits.mem_lines`, `exportOf_remove` : these lines are in the block, and nothing else of the assignment is seen there;
* `SharesHelper` : the helper of one service's calls that lies below the name of another declared name, such as
  `Calc_v2_add` for `Calc` and `Calc_v2`;
* `Continues` : a dotted name that goes on behind the prototype of another one;
* `Emits.shared` : no other assignment has lines in the blocks of two declared names;
* `composeScript_blocks` : the same for the blocks of a script module.
-/

namespace ThriftModules.Module

set_option autoImplicit false

open Idl (Source Symbols)
open Script (Assignment Value assignments)

/-! ## What a block has from an assignment -/

def codeLine (m : Missing) (code : Text) : Text :=
  match m.kind with
  | .enumeration => enumExport m.name code
  | .service => ["function ".toList, Symbols.clientOf m.name, code].flatten
  | _ => ["exports.".toList, m.name, " = (function () \x7b function ".toList, m.name, code].flatten

def HasBlock (found : List Assignment) (m : Missing) : Prop := ∃ code, codeOf? found m = some code

/-- The lines that the block of a declared name has from an assignment, the ones before and behind it given. -/
inductive Emits (m : Missing) (before : List Assignment) (a : Assignment) (after : List Assignment) : Text → Prop where
  /-- The code, from the first assignment that holds it. -/
  | code {code : Text} (supplies : Supplies m a code) (first : ∀ b ∈ before, ∀ other, ¬Supplies m b other) :
      Emits m before a after (codeLine m code)
  /-- A reader or writer of a type. -/
  | codec (block : HasBlock (before ++ a :: after) m) (type : m.kind = .struct ∨ m.kind = .exception)
      (member : isCodecMember m.name a.target = true) : Emits m before a after (closed a.unqualified)
  /-- A helper of a service's calls, as it stands in the script. -/
  | helper (block : HasBlock (before ++ a :: after) m) (service : m.kind = .service)
      (helper : isCallHelper m.name a = true) : Emits m before a after (closed a.statement)
  /-- The prototype of a service client, or a member of that. -/
  | member (block : HasBlock (before ++ a :: after) m) (service : m.kind = .service)
      (member : isPrototypePath (Symbols.clientOf m.name) a.target = true) :
      Emits m before a after (closed a.unqualified)

section
variable {symbols : Symbols} {m : Missing} {before after : List Assignment} {a : Assignment} {line : Text}

theorem Emits.hasBlock (h : Emits m before a after line) : HasBlock (before ++ a :: after) m := by
  cases h with
  | @code code supplies first => exact ⟨code, codeOf?_eq_some_iff.2 ⟨before, a, after, rfl, supplies, first⟩⟩
  | codec block | helper block | member block => exact block

theorem Emits.mem_lines (hm : m ∈ declared symbols) (h : Emits m before a after line) :
    line ∈ (exportOf symbols (before ++ a :: after) m).lines := by
  obtain ⟨code, hcode⟩ := h.hasBlock
  rw [exportOf_eq _ hm, hcode]
  have ha : a ∈ before ++ a :: after := by simp
  show line ∈ linesOf (before ++ a :: after) m code
  cases h with
  | @code code' supplies first =>
    have hsame : code' = code := by
      rw [codeOf?_eq_some_iff.2 ⟨before, a, after, rfl, supplies, first⟩] at hcode
      exact Option.some.inj hcode
    subst hsame
    rw [linesOf, codeLine]
    cases m.kind <;> simp [typeClosure, serviceClosure]
  | codec block type member =>
    have hfound : closed a.unqualified ∈
        ((before ++ a :: after).filter fun a => isCodecMember m.name a.target).map (closed ·.unqualified) :=
      List.mem_map_of_mem (List.mem_filter.2 ⟨ha, member⟩)
    rw [linesOf]
    rcases type with htype | htype <;> simp only [htype, typeClosure, List.mem_append, hfound, true_or, or_true]
  | helper block service helper =>
    have hfound : closed a.statement ∈
        ((before ++ a :: after).filter (isCallHelper m.name)).map (closed ·.statement) :=
      List.mem_map_of_mem (List.mem_filter.2 ⟨ha, helper⟩)
    rw [linesOf]
    simp only [service, serviceClosure, List.mem_append, hfound, true_or, or_true]
  | member block service member =>
    have hfound : closed a.unqualified ∈ ((before ++ a :: after).filter
        fun a => isPrototypePath (Symbols.clientOf m.name) a.target).map (closed ·.unqualified) :=
      List.mem_map_of_mem (List.mem_filter.2 ⟨ha, member⟩)
    rw [linesOf]
    simp only [service, serviceClosure, List.mem_append, hfound, true_or, or_true]

/-! ## A block without an assignment -/

/-- An assignment that does not hold the code of a name first has no part in the search for it. -/
theorem codeOf?_remove (h : ∀ code, Supplies m a code → ∃ b ∈ before, ∃ other, Supplies m b other) :
    codeOf? (before ++ after) m = codeOf? (before ++ a :: after) m := by
  obtain ⟨code?, hsearch, hcode⟩ := exists_search (before ++ after) m
  obtain ⟨code?', hsearch', hcode'⟩ := exists_search (before ++ a :: after) m
  have hsame : code?' = code? := by
    funext b
    refine Option.ext fun code => ?_
    rw [hcode, hcode']
  subst hsame
  rw [hsearch, hsearch', List.findSome?_append, List.findSome?_append, List.findSome?_cons]
  cases ha : code?' a with
  | none => rfl
  | some code =>
    -- an earlier assignment holds the code, so the search ends before this one
    obtain ⟨b, hb, other, hother⟩ := h code ((hcode a code).1 ha)
    have hfound : (before.findSome? code?').isSome := by
      rw [List.findSome?_isSome_iff]
      exact ⟨b, hb, by rw [(hcode b other).2 hother]; rfl⟩
    obtain ⟨x, hx⟩ := Option.isSome_iff_exists.1 hfound
    rw [hx]
    rfl

theorem filter_remove (p : Assignment → Bool) (h : p a = false) :
    (before ++ a :: after).filter p = (before ++ after).filter p := by
  rw [List.filter_append, List.filter_append, List.filter_cons_of_neg (by simp [h])]

/-- A block is the same without an assignment that emits nothing into it. -/
theorem exportOf_remove (hm : m ∈ declared symbols) (h : ∀ line, ¬Emits m before a after line) :
    exportOf symbols (before ++ after) m = exportOf symbols (before ++ a :: after) m := by
  have hcode : codeOf? (before ++ after) m = codeOf? (before ++ a :: after) m := by
    refine codeOf?_remove fun code hsupplies => ?_
    by_contra hfirst
    exact h _ (.code hsupplies fun b hb other hb' => hfirst ⟨b, hb, other, hb'⟩)
  rw [exportOf_eq _ hm, exportOf_eq _ hm, hcode]
  cases hblock : codeOf? (before ++ a :: after) m with
  | none => rfl
  | some code =>
    show Except.ok (linesOf _ m code) = Except.ok (linesOf _ m code)
    have hcodecs : m.kind = .struct ∨ m.kind = .exception → isCodecMember m.name a.target = false := fun htype =>
      Bool.eq_false_iff.2 fun hmember => h _ (.codec ⟨code, hblock⟩ htype hmember)
    have hhelpers : m.kind = .service → isCallHelper m.name a = false := fun hservice =>
      Bool.eq_false_iff.2 fun hhelper => h _ (.helper ⟨code, hblock⟩ hservice hhelper)
    have hmembers : m.kind = .service → isPrototypePath (Symbols.clientOf m.name) a.target = false := fun hservice =>
      Bool.eq_false_iff.2 fun hmember => h _ (.member ⟨code, hblock⟩ hservice hmember)
    rw [linesOf, linesOf]
    cases hkind : m.kind with
    | enumeration => rfl
    | struct => simp only [typeClosure, filter_remove (isCodecMember m.name ·.target) (hcodecs (.inl hkind))]
    | exception => simp only [typeClosure, filter_remove (isCodecMember m.name ·.target) (hcodecs (.inr hkind))]
    | service =>
      simp only [serviceClosure, filter_remove (isCallHelper m.name) (hhelpers hkind),
        filter_remove (isPrototypePath (Symbols.clientOf m.name) ·.target) (hmembers hkind)]

end

/-! ## Names and prefixes -/

section
variable {s t u : Text} {c : Char}

/-- A prefix of two texts in a row is one of the first, or reaches into the second. -/
theorem prefix_append_cases (h : s <+: t ++ u) : s <+: t ∨ ∃ r, r <+: u ∧ s = t ++ r := by
  rcases List.prefix_or_prefix_of_prefix h (List.prefix_append t u) with hle | ⟨r, rfl⟩
  · exact .inl hle
  · exact .inr ⟨r, (List.prefix_append_right_inj t).1 h, rfl⟩

/-- A text that ends in a character of its own does not reach into what is appended. -/
theorem prefix_of_concat_prefix_append (hc : c ∉ u) (h : (s ++ [c]) <+: t ++ u) : (s ++ [c]) <+: t := by
  rcases prefix_append_cases h with hle | ⟨r, hr, heq⟩
  · exact hle
  · rcases List.eq_nil_or_concat r with rfl | ⟨r', d, rfl⟩
    · exact ⟨[], by simpa using heq⟩
    · obtain ⟨rfl, rfl⟩ : s = t ++ r' ∧ c = d := by simpa [← List.append_assoc] using heq
      exact absurd (hr.subset (by simp)) hc

theorem prefix_of_prefix_append_cons (hc : c ∉ s) (h : s <+: t ++ c :: u) : s <+: t := by
  rcases prefix_append_cases h with hle | ⟨r, hr, rfl⟩
  · exact hle
  · cases r with
    | nil => exact ⟨[], by simp⟩
    | cons d r =>
      obtain ⟨rfl, -⟩ := List.cons_prefix_cons.1 hr
      exact absurd (by simp) hc

/-- If a prototype lies below another one, both are the same or the owner of the lower one lies below it, too. -/
theorem eq_or_continues_of_prototypes (h : (s ++ ".prototype".toList) <+: t ++ ".prototype".toList) :
    s = t ∨ (s ++ ".prototype".toList) <+: t := by
  have hst : s <+: t := List.prefix_of_prefix_length_le ((List.prefix_append s _).trans h) (List.prefix_append t _)
    (by simpa using h.length_le)
  obtain ⟨r, rfl⟩ := hst
  rw [List.append_assoc, List.prefix_append_right_inj] at h
  cases r with
  | nil => exact .inl (by simp)
  | cons d r =>
    obtain ⟨rfl, hbehind⟩ := List.cons_prefix_cons.1 h
    have hr := prefix_of_prefix_append_cons (by decide) hbehind
    exact .inr ((List.prefix_append_right_inj s).2 (List.cons_prefix_cons.2 ⟨rfl, hr⟩))

end

/-! ## Two blocks -/

/-- An assignment that is a helper of a service's calls and lies below the name of another service or type, which starts
with that service and an underscore. -/
structure SharesHelper (m m' : Missing) (a : Assignment) : Prop where
  service : m.kind = .service
  helper : isCallHelper m.name a = true
  other : m'.kind ≠ .enumeration
  name : (m.name ++ ['_']) <+: m'.name

/-- A name that goes on behind the prototype of another one. -/
def Continues (m m' : Missing) : Prop := (exportedName m ++ ".prototype".toList) <+: exportedName m'

def ClientsApart (symbols : Symbols) : Prop :=
  ∀ service ∈ symbols.services.toList, Symbols.clientOf service ∉ symbols.types

instance (symbols : Symbols) : Decidable (ClientsApart symbols) := inferInstanceAs (Decidable (∀ _ ∈ _, _))

/-- An assignment to the exported name, or to its prototype or below that. -/
def Owns (m : Missing) (a : Assignment) : Prop :=
  (∃ code, Supplies m a code) ∨ m.kind ≠ .enumeration ∧ (exportedName m ++ ".prototype".toList) <+: a.target

section
variable {symbols : Symbols} {m m' : Missing} {before after : List Assignment} {a : Assignment}
  {line line' code code' : Text}

/-- What is no enum is declared as a type, with the kind of its name, or as a service. -/
theorem type_or_service_of_mem_declared (hm : m ∈ declared symbols) (hkind : m.kind ≠ .enumeration) :
    (∃ name ∈ symbols.types, m = ⟨symbols.typeKind name, name⟩) ∨
      ∃ service ∈ symbols.services.toList, m = ⟨.service, service⟩ := by
  simp only [declared, List.mem_append, List.mem_map] at hm
  rcases hm with (⟨name, -, rfl⟩ | ⟨name, hname, rfl⟩) | ⟨service, hservice, rfl⟩
  · exact absurd rfl hkind
  · exact .inl ⟨name, hname, rfl⟩
  · exact .inr ⟨service, hservice, rfl⟩

theorem exportedName_type (symbols : Symbols) (name : Text) : exportedName ⟨symbols.typeKind name, name⟩ = name := by
  rcases typeKind_cases symbols name with h | h <;> rw [h] <;> rfl

theorem eq_of_exportedName_eq (hapart : ClientsApart symbols) (hm : m ∈ declared symbols)
    (hm' : m' ∈ declared symbols) (hkind : m.kind ≠ .enumeration) (hkind' : m'.kind ≠ .enumeration)
    (h : exportedName m = exportedName m') : m = m' := by
  rcases type_or_service_of_mem_declared hm hkind with ⟨name, hname, rfl⟩ | ⟨service, hservice, rfl⟩ <;>
    rcases type_or_service_of_mem_declared hm' hkind' with ⟨name', hname', rfl⟩ | ⟨service', hservice', rfl⟩
  · rw [exportedName_type, exportedName_type] at h
    rw [h]
  · rw [exportedName_type] at h
    subst h
    exact absurd hname (hapart _ hservice')
  · rw [exportedName_type] at h
    subst h
    exact absurd hname' (hapart _ hservice)
  · exact congrArg _ (List.append_cancel_right h)

/-- No assignment holds the code of two declared names. -/
theorem eq_of_supplies (hapart : ClientsApart symbols) (hm : m ∈ declared symbols) (hm' : m' ∈ declared symbols)
    (h : Supplies m a code) (h' : Supplies m' a code') : m = m' := by
  have hname : exportedName m = exportedName m' := h.1.symm.trans h'.1
  have hvalue : assignedValue m code = assignedValue m' code' := h.2.symm.trans h'.2
  by_cases hkind : m.kind = .enumeration
  · have hkind' : m'.kind = .enumeration := by
      by_contra hother
      rw [assignedValue, assignedValue, if_pos hkind, if_neg hother] at hvalue
      cases hvalue
    obtain ⟨kind, name⟩ := m
    obtain ⟨kind', name'⟩ := m'
    simp only at hkind hkind'
    subst hkind hkind'
    exact congrArg _ hname
  · have hkind' : m'.kind ≠ .enumeration := by
      intro hother
      rw [assignedValue, assignedValue, if_neg hkind, if_pos hother] at hvalue
      cases hvalue
    exact eq_of_exportedName_eq hapart hm hm' hkind hkind' hname

/-- What an assignment emits into is its owner, or the service whose calls it helps. -/
theorem Emits.owns (h : Emits m before a after line) :
    Owns m a ∨ m.kind = .service ∧ isCallHelper m.name a = true := by
  cases h with
  | code supplies first => exact .inl (.inl ⟨_, supplies⟩)
  | codec block type member =>
    have hkind : m.kind ≠ .enumeration ∧ m.kind ≠ .service := by rcases type with e | e <;> rw [e] <;> decide
    refine .inl (.inr ⟨hkind.1, ?_⟩)
    rw [exportedName, if_neg hkind.2]
    refine (prefix_of_isCodecMember member).elim (List.IsPrefix.trans ?_) (List.IsPrefix.trans ?_)
    · exact ⟨".read".toList, by simp⟩
    · exact ⟨".write".toList, by simp⟩
  | helper block service helper => exact .inr ⟨service, helper⟩
  | member block service member =>
    refine .inl (.inr ⟨by rw [service]; decide, ?_⟩)
    rw [exportedName, if_pos service]
    exact (eq_or_prefix_of_isPrototypePath member).elim (fun h => h ▸ List.prefix_rfl)
      (List.IsPrefix.trans ⟨['.'], by simp⟩)

/-- Two owners are one, or the name of one continues the name of the other. -/
theorem Owns.continues (hapart : ClientsApart symbols) (hm : m ∈ declared symbols) (hm' : m' ∈ declared symbols)
    (hne : m ≠ m') (h : Owns m a) (h' : Owns m' a) : Continues m m' ∨ Continues m' m := by
  rcases h with ⟨code, hcode⟩ | ⟨hkind, hbelow⟩ <;> rcases h' with ⟨code', hcode'⟩ | ⟨hkind', hbelow'⟩
  · exact absurd (eq_of_supplies hapart hm hm' hcode hcode') hne
  · rw [hcode.1] at hbelow'
    exact .inr hbelow'
  · rw [hcode'.1] at hbelow
    exact .inl hbelow
  · have hnames : exportedName m ≠ exportedName m' := fun e => hne (eq_of_exportedName_eq hapart hm hm' hkind hkind' e)
    rcases List.prefix_or_prefix_of_prefix hbelow hbelow' with hle | hle
    · exact .inl ((eq_or_continues_of_prototypes hle).resolve_left hnames)
    · exact .inr ((eq_or_continues_of_prototypes hle).resolve_left (Ne.symm hnames))

/-- The owner of a helper has a name that starts with the service and an underscore. -/
theorem Owns.sharesHelper (hservice : m.kind = .service) (hhelper : isCallHelper m.name a = true) (h : Owns m' a) :
    SharesHelper m m' a := by
  have hroot := prefix_of_isCallHelper hhelper
  have hother : m'.kind ≠ .enumeration := by
    intro hkind
    rcases h with ⟨code, -, hvalue⟩ | ⟨hkind', -⟩
    · -- the code of an enum is an object, a helper is a function
      rw [assignedValue, if_pos hkind] at hvalue
      simp [isCallHelper, hvalue] at hhelper
    · exact hkind' hkind
  have hexported : (m.name ++ ['_']) <+: exportedName m' := by
    rcases h with ⟨code, htarget, -⟩ | ⟨-, hbelow⟩
    · exact htarget ▸ hroot.trans (List.takeWhile_prefix _)
    · have hname : a.root = (exportedName m').takeWhile (· != '.') := root_of_prefix hbelow
      rw [hname] at hroot
      exact hroot.trans (List.takeWhile_prefix _)
  refine ⟨hservice, hhelper, hother, ?_⟩
  rw [exportedName] at hexported
  split at hexported
  · exact prefix_of_concat_prefix_append (by decide) hexported
  · exact hexported

/-- Of two services with the same helper, the name of one starts with the other and an underscore. -/
theorem sharesHelper_of_services (hne : m ≠ m') (hservice : m.kind = .service) (hservice' : m'.kind = .service)
    (hhelper : isCallHelper m.name a = true) (hhelper' : isCallHelper m'.name a = true) :
    SharesHelper m m' a ∨ SharesHelper m' m a := by
  have hnames : m.name ≠ m'.name := fun e => hne (by cases m; cases m'; simp_all)
  have hother : m.kind ≠ .enumeration ∧ m'.kind ≠ .enumeration := by rw [hservice, hservice']; decide
  rcases List.prefix_or_prefix_of_prefix (prefix_of_isCallHelper hhelper) (prefix_of_isCallHelper hhelper')
    with hle | hle <;> rcases List.prefix_concat_iff.1 hle with heq | hname
  · exact absurd (List.append_cancel_right heq) hnames
  · exact .inl ⟨hservice, hhelper, hother.2, hname⟩
  · exact absurd (List.append_cancel_right heq).symm hnames
  · exact .inr ⟨hservice', hhelper', hother.1, hname⟩

/-- An assignment that has lines in the blocks of two declared names is a helper that these share, or the name of one
continues the name of the other. -/
theorem Emits.shared (hapart : ClientsApart symbols) (hm : m ∈ declared symbols) (hm' : m' ∈ declared symbols)
    (hne : m ≠ m') (h : Emits m before a after line) (h' : Emits m' before a after line') :
    (SharesHelper m m' a ∨ SharesHelper m' m a) ∨ Continues m m' ∨ Continues m' m := by
  rcases h.owns with howns | ⟨hservice, hhelper⟩ <;> rcases h'.owns with howns' | ⟨hservice', hhelper'⟩
  · exact .inr (howns.continues hapart hm hm' hne howns')
  · exact .inl (.inr (howns.sharesHelper hservice' hhelper'))
  · exact .inl (.inl (howns'.sharesHelper hservice hhelper))
  · exact .inl (sharesHelper_of_services hne hservice hservice' hhelper hhelper')

/-! ## Declared names of a source -/

theorem isWordChar_of_mem_declared {source : Source} (hm : m ∈ declared (.ofSource source)) :
    ∀ c ∈ m.name, Text.isWordChar c = true := by
  have hname : m.name ∈ source.declared m.kind := by
    have h := (mem_declared.1 hm).1
    cases hkind : m.kind <;> rw [hkind] at h <;> exact h
  rw [Source.declared, NameSet.mem_ofList, List.mem_flatMap] at hname
  obtain ⟨line, -, hword⟩ := hname
  obtain ⟨tail, -, hword⟩ := List.mem_map.1 (List.mem_filter.1 hword).1
  exact fun c hc => List.mem_takeWhile_imp (hword ▸ hc)

theorem not_continues_of_ofSource {source : Source} (hm' : m' ∈ declared (.ofSource source)) : ¬Continues m m' := by
  intro h
  have hdot : '.' ∈ exportedName m' := h.subset (by simp)
  rw [exportedName] at hdot
  have hname : '.' ∈ m'.name := by
    split at hdot
    · exact (List.mem_append.1 hdot).resolve_right (by decide)
    · exact hdot
  exact absurd (isWordChar_of_mem_declared hm' _ hname) (by decide)

theorem declared_nodup (symbols : Symbols) : (declared symbols).Nodup := by
  have hmap : ∀ (kind : Text → Idl.Kind) (names : NameSet),
      (names.toList.map fun name => Missing.mk (kind name) name).Nodup := by
    intro kind names
    refine names.sorted.map _ fun {x y} hlt e => ?_
    rw [(Missing.mk.inj e).2] at hlt
    exact List.lt_irrefl y hlt
  refine List.nodup_append.2 ⟨List.nodup_append.2 ⟨hmap _ _, hmap _ _, ?_⟩, hmap _ _, ?_⟩
  · rintro _ ha _ hb rfl
    obtain ⟨name, -, rfl⟩ := List.mem_map.1 ha
    obtain ⟨name', -, e⟩ := List.mem_map.1 hb
    rcases typeKind_cases symbols name' with hk | hk <;> rw [hk] at e <;> cases e
  · rintro _ ha _ hb rfl
    obtain ⟨service, -, rfl⟩ := List.mem_map.1 hb
    rcases List.mem_append.1 ha with ha | ha
    · obtain ⟨name, -, e⟩ := List.mem_map.1 ha
      cases e
    · obtain ⟨name, -, e⟩ := List.mem_map.1 ha
      rcases typeKind_cases symbols name with hk | hk <;> rw [hk] at e <;> cases e

end

/-! ## The module -/

/-- An assignment goes into one block of a script module at most, but for the helpers of a service's calls that lie
below the name of another declared service or type. A module is its imports and one block for each declared name that
has code; a block has from each assignment what it emits and nothing else; and if an assignment emits into two blocks,
then one of them is that of a service whose calls it helps, and the other that of a service or type whose name starts
with that service and an underscore. Dotted names may also continue each other, but a source declares none. -/
theorem composeScript_blocks (ctx : Context) (script : Text) (hapart : ClientsApart ctx.symbols)
    (before : List Assignment) (a : Assignment) (after : List Assignment)
    (hsplit : assignments script ctx.ns = before ++ a :: after) :
    ((composeScript ctx script).text = Text.unlines (importLines ctx ++
        (declared ctx.symbols).flatMap fun m => (exportOf ctx.symbols (assignments script ctx.ns) m).lines) ∧
      (declared ctx.symbols).Nodup) ∧
    (∀ m ∈ declared ctx.symbols,
      (∀ line, Emits m before a after line → line ∈ (exportOf ctx.symbols (assignments script ctx.ns) m).lines) ∧
      ((∀ line, ¬Emits m before a after line) →
        exportOf ctx.symbols (before ++ after) m = exportOf ctx.symbols (assignments script ctx.ns) m)) ∧
    (∀ m ∈ declared ctx.symbols, ∀ m' ∈ declared ctx.symbols, m ≠ m' → ∀ line line',
      Emits m before a after line → Emits m' before a after line' →
      (SharesHelper m m' a ∨ SharesHelper m' m a) ∨ Continues m m' ∨ Continues m' m) ∧
    ∀ source, ctx.symbols = .ofSource source →
      ∀ m ∈ declared ctx.symbols, ∀ m' ∈ declared ctx.symbols, ¬Continues m m' := by
  refine ⟨⟨?_, declared_nodup _⟩, fun m hm => ⟨fun line h => ?_, fun h => ?_⟩, ?_, ?_⟩
  · rw [composeScript_eq, moduleOf, exports_eq, List.flatMap_map]
  · rw [hsplit]
    exact h.mem_lines hm
  · rw [hsplit]
    exact exportOf_remove hm h
  · intro m hm m' hm' hne line line' h h'
    exact h.shared hapart hm hm' hne h'
  · intro source hsource m _ m' hm'
    rw [hsource] at hm'
    exact not_continues_of_ofSource hm'

/-- A helper of the only service goes into the block of that service and into no other. -/
theorem composeScript_blocks_calc :
    let source := Source.ofText "demo.thrift".toList "struct Point \x7b\x7d service Calc \x7b\x7d".toList
    let ctx : Context := ⟨"app".toList, source, "demo".toList, .ofSource source, .empty⟩
    let rest := "demo.Point = function() \x7b\x7d;\ndemo.CalcClient = function(o) \x7b\x7d;\n".toList
    let helper : Assignment := ⟨"Calc_add".toList, "Calc_add = function() \x7b\x7d".toList,
      "demo.Calc_add = function() \x7b\x7d".toList, .function "() \x7b\x7d".toList⟩
    let before := assignments rest ctx.ns
    ClientsApart ctx.symbols ∧
      assignments (rest ++ "demo.Calc_add = function() \x7b\x7d;\n".toList) ctx.ns = before ++ [helper] ∧
      Emits ⟨.service, "Calc".toList⟩ before helper [] "demo.Calc_add = function() \x7b\x7d;".toList ∧
      ∀ m ∈ declared ctx.symbols, ∀ line, Emits m before helper [] line → m = ⟨.service, "Calc".toList⟩ := by
  intro source ctx rest helper before
  have hapart : ClientsApart ctx.symbols := by decide +kernel
  have hsplit : assignments (rest ++ "demo.Calc_add = function() \x7b\x7d;\n".toList) ctx.ns = before ++ [helper] := by
    decide +kernel
  have hcalc : (⟨.service, "Calc".toList⟩ : Missing) ∈ declared ctx.symbols := by decide +kernel
  have hemits : Emits ⟨.service, "Calc".toList⟩ before helper [] "demo.Calc_add = function() \x7b\x7d;".toList :=
    .helper ⟨"(o) \x7b\x7d".toList, by decide +kernel⟩ rfl (by decide +kernel)
  obtain ⟨-, -, hshared, hcontinues⟩ := composeScript_blocks ctx _ hapart before helper [] hsplit
  refine ⟨hapart, hsplit, hemits, fun m hm line h => ?_⟩
  by_contra hne
  have hnames : ∀ m ∈ declared ctx.symbols,
      ¬("Calc".toList ++ ['_']) <+: m.name ∧ ¬(m.name ++ ['_']) <+: "Calc".toList := by decide +kernel
  rcases hshared m hm _ hcalc hne _ _ h hemits with (hother | hcalc') | hcontinue | hcontinue
  · exact (hnames m hm).2 hother.name
  · exact (hnames m hm).1 hcalc'.name
  · exact hcontinues source rfl m hm _ hcalc hcontinue
  · exact hcontinues source rfl _ hcalc m hm hcontinue

/-- A helper of `Calc_v2` goes into the blocks of `Calc` and of `Calc_v2`, and a reader of `A` into the block of a type
that is called like this reader too. -/
theorem composeScript_blocks_shared :
    (let source := Source.ofText "demo.thrift".toList "service Calc \x7b\x7d service Calc_v2 \x7b\x7d".toList
      let ctx : Context := ⟨"app".toList, source, "demo".toList, .ofSource source, .empty⟩
      let rest := "demo.CalcClient = function(o) \x7b\x7d;\ndemo.Calc_v2Client = function(o) \x7b\x7d;\n".toList
      let helper : Assignment := ⟨"Calc_v2_add".toList, "Calc_v2_add = function() \x7b\x7d".toList,
        "demo.Calc_v2_add = function() \x7b\x7d".toList, .function "() \x7b\x7d".toList⟩
      let before := assignments rest ctx.ns
      (ctx.symbols.types.toList ++ ctx.symbols.services.toList.map Symbols.clientOf).Nodup ∧
        declared ctx.symbols = [⟨.service, "Calc".toList⟩, ⟨.service, "Calc_v2".toList⟩] ∧
        assignments (rest ++ "demo.Calc_v2_add = function() \x7b\x7d;\n".toList) ctx.ns = before ++ [helper] ∧
        ∀ m ∈ declared ctx.symbols, Emits m before helper [] "demo.Calc_v2_add = function() \x7b\x7d;".toList) ∧
    (let names : NameSet := .ofList ["A".toList, "A.prototype.read".toList]
      let ctx : Context := ⟨"app".toList, .ofText "demo.thrift".toList [], "demo".toList, ⟨∅, names, ∅, ∅⟩, .empty⟩
      let rest := "demo.A = function() \x7b\x7d;\n".toList
      let reader : Assignment := ⟨"A.prototype.read".toList, "A.prototype.read = function() \x7b\x7d".toList,
        "demo.A.prototype.read = function() \x7b\x7d".toList, .function "() \x7b\x7d".toList⟩
      let before := assignments rest ctx.ns
      (ctx.symbols.types.toList ++ ctx.symbols.services.toList.map Symbols.clientOf).Nodup ∧
        declared ctx.symbols = [⟨.struct, "A".toList⟩, ⟨.struct, "A.prototype.read".toList⟩] ∧
        assignments (rest ++ "demo.A.prototype.read = function() \x7b\x7d;\n".toList) ctx.ns = before ++ [reader] ∧
        ∀ m ∈ declared ctx.symbols, ∃ line, Emits m before reader [] line) := by
  refine ⟨?_, ?_⟩
  · intro source ctx rest helper before
    have hdeclared : declared ctx.symbols = [⟨.service, "Calc".toList⟩, ⟨.service, "Calc_v2".toList⟩] := by
      decide +kernel
    refine ⟨by decide +kernel, hdeclared, by decide +kernel, fun m hm => ?_⟩
    rw [hdeclared] at hm
    rcases List.mem_pair.1 hm with rfl | rfl
    · exact .helper ⟨"(o) \x7b\x7d".toList, by decide +kernel⟩ rfl (by decide +kernel)
    · exact .helper ⟨"(o) \x7b\x7d".toList, by decide +kernel⟩ rfl (by decide +kernel)
  · intro names ctx rest reader before
    have hdeclared : declared ctx.symbols = [⟨.struct, "A".toList⟩, ⟨.struct, "A.prototype.read".toList⟩] := by
      decide +kernel
    refine ⟨by decide +kernel, hdeclared, by decide +kernel, fun m hm => ?_⟩
    rw [hdeclared] at hm
    rcases List.mem_pair.1 hm with rfl | rfl
    · exact ⟨_, .codec ⟨"() \x7b\x7d".toList, by decide +kernel⟩ (.inl rfl) (by decide +kernel)⟩
    · have hbefore : ∀ b ∈ before, b.target ≠ "A.prototype.read".toList := by decide +kernel
      exact ⟨_, .code ⟨rfl, rfl⟩ fun b hb other h => hbefore b hb h.1⟩

end ThriftModules.Module
