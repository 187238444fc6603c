import ThriftModules.Idl.Source
import ThriftModules.Module.Script
import ThriftModules.Proofs.Text.Sites

/-!
# Foreign code in a script

* `Concerns` : an assignment that a script module may depend on;
* `Part` : the selections of assignments that an export is made from; an export is the same where they are
  (`exports_congr`), and each selects only what concerns the module (`Part.concerns`);
* `IsMovable` : a declared enum or type whose name no service claims;
* `Reordered` : the assignments below each movable name keep their order, and so do all others among each other; a part
  lies below one name or below none that is movable (`Part.root`), so it is the same after reordering (`Part.reordered`);
* `composeScript_foreign` : nothing else in a script, and no such order, can be seen in the module.
-/

namespace ThriftModules.Module

set_option autoImplicit false

open Idl (Symbols)
open Script (Assignment assignments)

/-! ## What concerns a module -/

/-- An assignment to a declared enum or type, to a reader or writer of a declared type, to the client of a declared
service, its prototype or a member of that, or below a root that starts with a declared service and an underscore. -/
def Concerns (symbols : Symbols) (a : Assignment) : Prop :=
  a.target ∈ symbols.enums ∨ a.target ∈ symbols.types ∨
    (∃ name ∈ symbols.types.toList,
      (name ++ ".prototype.read".toList) <+: a.target ∨ (name ++ ".prototype.write".toList) <+: a.target) ∨
    (∃ service ∈ symbols.services.toList, a.target = Symbols.clientOf service ∨
      a.target = Symbols.clientOf service ++ ".prototype".toList ∨
      (Symbols.clientOf service ++ ".prototype.".toList) <+: a.target) ∨
    ∃ service ∈ symbols.services.toList, (service ++ ['_']) <+: a.root

instance (symbols : Symbols) (a : Assignment) : Decidable (Concerns symbols a) := inferInstanceAs (Decidable (_ ∨ _))

def concerning (symbols : Symbols) (found : List Assignment) : List Assignment := found.filter (Concerns symbols ·)

/-! ## What an export is made from -/

/-- The selections of assignments that the exports are made from. -/
inductive Part (symbols : Symbols) : (Assignment → Bool) → Prop where
  | enumeration {name : Text} : name ∈ symbols.enums → Part symbols (·.target = name)
  | type {name : Text} : name ∈ symbols.types → Part symbols (·.target = name)
  | codecs {name : Text} : name ∈ symbols.types → Part symbols (isCodecMember name ·.target)
  | client {service : Text} : service ∈ symbols.services → Part symbols (·.target = Symbols.clientOf service)
  | helpers {service : Text} : service ∈ symbols.services → Part symbols (isCallHelper service)
  | members {service : Text} : service ∈ symbols.services →
      Part symbols (isPrototypePath (Symbols.clientOf service) ·.target)

section
variable {symbols : Symbols} {found found' : List Assignment} {p : Assignment → Bool}

theorem findSome?_filter {α β : Type} {f : α → Option β} {p : α → Bool} (h : ∀ a, p a = false → f a = none)
    (xs : List α) : (xs.filter p).findSome? f = xs.findSome? f := by
  induction xs with
  | nil => rfl
  | cons x xs ih =>
    cases hx : p x with
    | false => rw [List.filter_cons_of_neg (by simp [hx]), ih, List.findSome?_cons, h x hx]
    | true => rw [List.filter_cons_of_pos hx, List.findSome?_cons, List.findSome?_cons, ih]

theorem findObject?_filter (found : List Assignment) (target : Text) :
    findObject? (found.filter (·.target = target)) target = findObject? found target := by
  refine findSome?_filter (fun a ha => ?_) found
  have htarget : a.target ≠ target := of_decide_eq_false ha
  split <;> simp [htarget]

theorem findFunction?_filter (found : List Assignment) (target : Text) :
    findFunction? (found.filter (·.target = target)) target = findFunction? found target := by
  refine findSome?_filter (fun a ha => ?_) found
  have htarget : a.target ≠ target := of_decide_eq_false ha
  split <;> simp [htarget]

theorem exports_congr (h : ∀ p, Part symbols p → found.filter p = found'.filter p) :
    exports symbols found = exports symbols found' := by
  have henums : ∀ name ∈ symbols.enums.toList, exportEnum found name = exportEnum found' name := by
    intro name hname
    rw [exportEnum, exportEnum, ← findObject?_filter found, ← findObject?_filter found', h _ (.enumeration hname)]
  have htypes : ∀ name ∈ symbols.types.toList, exportType symbols found name = exportType symbols found' name := by
    intro name hname
    rw [exportType, exportType, ← findFunction?_filter found, ← findFunction?_filter found', h _ (.type hname)]
    simp only [typeClosure, h _ (.codecs hname)]
  have hservices : ∀ service ∈ symbols.services.toList, exportService found service = exportService found' service := by
    intro service hservice
    rw [exportService, exportService, ← findFunction?_filter found, ← findFunction?_filter found',
      h _ (.client hservice)]
    simp only [serviceClosure, h _ (.helpers hservice), h _ (.members hservice)]
  rw [exports, exports, List.map_congr_left henums, List.map_congr_left htypes, List.map_congr_left hservices]

/-! ## A part concerns the module -/

theorem afterPrototype?_eq_some_iff {owner target rest : Text} :
    afterPrototype? owner target = some rest ↔ target = owner ++ (".prototype".toList ++ rest) := by
  rw [afterPrototype?, Text.stripStart?_eq_some_iff, List.append_assoc]

theorem prefix_of_isCodecMember {owner target : Text} (h : isCodecMember owner target = true) :
    (owner ++ ".prototype.read".toList) <+: target ∨ (owner ++ ".prototype.write".toList) <+: target := by
  unfold isCodecMember at h
  split at h
  · next member hafter =>
    have htarget := afterPrototype?_eq_some_iff.1 hafter
    rw [Bool.or_eq_true, Text.startsWith_iff, Text.startsWith_iff] at h
    obtain ⟨rest, rfl⟩ | ⟨rest, rfl⟩ := h
    · exact .inl ⟨rest, by simp [htarget]⟩
    · exact .inr ⟨rest, by simp [htarget]⟩
  · cases h

theorem eq_or_prefix_of_isPrototypePath {owner target : Text} (h : isPrototypePath owner target = true) :
    target = owner ++ ".prototype".toList ∨ (owner ++ ".prototype.".toList) <+: target := by
  unfold isPrototypePath at h
  split at h
  · next rest hafter =>
    have htarget := afterPrototype?_eq_some_iff.1 hafter
    rw [Bool.or_eq_true, List.isEmpty_iff, beq_iff_eq, List.head?_eq_some_iff] at h
    obtain rfl | ⟨member, rfl⟩ := h
    · exact .inl (by simpa using htarget)
    · exact .inr ⟨member, by simp [htarget]⟩
  · cases h

theorem prefix_of_isCallHelper {service : Text} {a : Assignment} (h : isCallHelper service a = true) :
    (service ++ ['_']) <+: a.root :=
  Text.startsWith_iff.1 (Bool.and_eq_true_iff.1 h).1

theorem Part.concerns (hp : Part symbols p) {a : Assignment} (h : p a = true) : Concerns symbols a := by
  cases hp with
  | enumeration hname => exact .inl (of_decide_eq_true h ▸ hname)
  | type hname => exact .inr (.inl (of_decide_eq_true h ▸ hname))
  | codecs hname => exact .inr (.inr (.inl ⟨_, hname, prefix_of_isCodecMember h⟩))
  | client hservice => exact .inr (.inr (.inr (.inl ⟨_, hservice, .inl (of_decide_eq_true h)⟩)))
  | helpers hservice => exact .inr (.inr (.inr (.inr ⟨_, hservice, prefix_of_isCallHelper h⟩)))
  | members hservice =>
    exact .inr (.inr (.inr (.inl ⟨_, hservice, .inr (eq_or_prefix_of_isPrototypePath h)⟩)))

/-- The exports depend on what concerns the module alone. -/
theorem exports_concerning (symbols : Symbols) (found : List Assignment) :
    exports symbols (concerning symbols found) = exports symbols found := by
  refine exports_congr fun p hp => ?_
  rw [concerning, List.filter_filter]
  refine List.filter_congr fun a _ => ?_
  cases hpa : p a with
  | false => rfl
  | true => simp [hp.concerns hpa]

/-! ## The order of assignments below different names -/

/-- A declared enum or type whose name neither starts with a declared service and an underscore nor is the name of its
client. -/
def IsMovable (symbols : Symbols) (name : Text) : Prop :=
  (name ∈ symbols.enums ∨ name ∈ symbols.types) ∧
    ∀ service ∈ symbols.services.toList, ¬(service ++ ['_']) <+: name ∧ name ≠ Symbols.clientOf service

instance (symbols : Symbols) (name : Text) : Decidable (IsMovable symbols name) :=
  inferInstanceAs (Decidable (_ ∧ _))

/-- The same assignments in an order that is the same below each movable name, and the same among all the others. -/
structure Reordered (symbols : Symbols) (found found' : List Assignment) : Prop where
  below : ∀ name, IsMovable symbols name → found.filter (·.root = name) = found'.filter (·.root = name)
  others : found.filter (¬IsMovable symbols ·.root) = found'.filter (¬IsMovable symbols ·.root)

/-- The assignments below a movable name, moved past assignments that are not below it. -/
theorem Reordered.past {name : Text} (hname : IsMovable symbols name) {moved passed : List Assignment}
    (hmoved : ∀ a ∈ moved, a.root = name) (hpassed : ∀ a ∈ passed, a.root ≠ name) (before after : List Assignment) :
    Reordered symbols (before ++ moved ++ passed ++ after) (before ++ passed ++ moved ++ after) where
  below other _ := by
    simp only [List.filter_append]
    by_cases h : other = name
    · have hnone : passed.filter (·.root = other) = [] :=
        List.filter_eq_nil_iff.2 fun a ha => by simpa [h] using hpassed a ha
      simp [hnone]
    · have hnone : moved.filter (·.root = other) = [] :=
        List.filter_eq_nil_iff.2 fun a ha => by simpa [hmoved a ha] using Ne.symm h
      simp [hnone]
  others := by
    have hnone : moved.filter (¬IsMovable symbols ·.root) = [] :=
      List.filter_eq_nil_iff.2 fun a ha => by simpa [hmoved a ha] using hname
    simp only [List.filter_append, hnone, List.append_nil]

theorem filter_comm {α : Type} (p q : α → Bool) (xs : List α) : (xs.filter q).filter p = (xs.filter p).filter q := by
  rw [List.filter_filter, List.filter_filter]
  exact List.filter_congr fun x _ => Bool.and_comm (p x) (q x)

theorem Reordered.filter (h : Reordered symbols found found') (q : Assignment → Bool) :
    Reordered symbols (found.filter q) (found'.filter q) where
  below name hname := by rw [filter_comm, h.below name hname, filter_comm]
  others := by rw [filter_comm, h.others, filter_comm]

theorem root_of_prefix {owner rest : Text} {a : Assignment} (h : (owner ++ '.' :: rest) <+: a.target) :
    a.root = owner.takeWhile (· != '.') := by
  obtain ⟨t, ht⟩ := h
  rw [Assignment.root, ← ht, List.append_assoc, List.cons_append, List.takeWhile_append]
  split
  · next hall => simp [(List.takeWhile_prefix _).eq_of_length hall]
  · rfl

/-- What a part selects lies below one name, or below names that are not movable. -/
theorem Part.root (hp : Part symbols p) :
    (∃ name, ∀ a, p a = true → a.root = name) ∨ ∀ a, p a = true → ¬IsMovable symbols a.root := by
  have hnamed : ∀ (name : Text) (a : Assignment), decide (a.target = name) = true →
      a.root = name.takeWhile (· != '.') := fun name a ha => by rw [Assignment.root, of_decide_eq_true ha]
  cases hp with
  | enumeration hname => exact .inl ⟨_, hnamed _⟩
  | type hname => exact .inl ⟨_, hnamed _⟩
  | client hservice => exact .inl ⟨_, hnamed _⟩
  | @codecs name hname =>
    refine .inl ⟨name.takeWhile (· != '.'), fun a ha => ?_⟩
    exact (prefix_of_isCodecMember ha).elim root_of_prefix root_of_prefix
  | @members service hservice =>
    refine .inl ⟨(Symbols.clientOf service).takeWhile (· != '.'), fun a ha => ?_⟩
    have hprefix : (Symbols.clientOf service ++ ".prototype".toList) <+: a.target :=
      (eq_or_prefix_of_isPrototypePath ha).elim (fun h => h ▸ List.prefix_rfl)
        (List.IsPrefix.trans ⟨['.'], by simp⟩)
    exact root_of_prefix hprefix
  | helpers hservice => exact .inr fun a ha hmovable => (hmovable.2 _ hservice).1 (prefix_of_isCallHelper ha)

theorem Part.reordered (hp : Part symbols p) (h : Reordered symbols found found') : found.filter p = found'.filter p := by
  -- the assignments of a part are among those that one field of the order speaks of
  have hamong : ∀ q : Assignment → Bool, (∀ a, p a = true → q a = true) → found.filter q = found'.filter q →
      found.filter p = found'.filter p := by
    intro q hq heq
    have hself : ∀ xs : List Assignment, xs.filter p = (xs.filter q).filter p := fun xs => by
      rw [List.filter_filter]
      exact List.filter_congr fun a _ => by cases hpa : p a <;> simp [hq a, hpa]
    rw [hself, heq, ← hself]
  rcases hp.root with ⟨name, hroot⟩ | hroot
  · by_cases hname : IsMovable symbols name
    · exact hamong _ (fun a ha => by simpa using hroot a ha) (h.below name hname)
    · exact hamong _ (fun a ha => by simpa [hroot a ha] using hname) h.others
  · exact hamong _ (fun a ha => by simpa using hroot a ha) h.others

end

/-! ## The module -/

def moduleOf (ctx : Context) (found : List Assignment) : Composed :=
  let all := exports ctx.symbols found
  ⟨Text.unlines (importLines ctx ++ all.flatMap Export.lines), all.filterMap Export.missing?⟩

theorem composeScript_eq (ctx : Context) (script : Text) :
    composeScript ctx script = moduleOf ctx (assignments script ctx.ns) := rfl

/-- A script module depends only on the assignments that concern it; and of those, only on the order of the ones below
each movable name, and on the order of all others among each other. -/
theorem composeScript_foreign (ctx : Context) (script script' : Text) :
    (concerning ctx.symbols (assignments script ctx.ns) = concerning ctx.symbols (assignments script' ctx.ns) →
      composeScript ctx script = composeScript ctx script') ∧
    (Reordered ctx.symbols (concerning ctx.symbols (assignments script ctx.ns))
        (concerning ctx.symbols (assignments script' ctx.ns)) →
      composeScript ctx script = composeScript ctx script') := by
  have hexports : ∀ found : List Assignment, moduleOf ctx (concerning ctx.symbols found) = moduleOf ctx found :=
    fun found => by simp only [moduleOf, exports_concerning]
  constructor
  · intro h
    rw [composeScript_eq, composeScript_eq, ← hexports, h, hexports]
  · intro h
    have hparts : exports ctx.symbols (concerning ctx.symbols (assignments script ctx.ns)) =
        exports ctx.symbols (concerning ctx.symbols (assignments script' ctx.ns)) :=
      exports_congr fun p hp => hp.reordered h
    rw [composeScript_eq, composeScript_eq, ← hexports, ← hexports (assignments script' ctx.ns), moduleOf, moduleOf,
      hparts]

/-- Foreign code around the code of an enum, a struct and a service, which is the same module as that code alone; and
the struct's code moved past the enum's and the client's constructor. -/
theorem composeScript_foreign_small :
    let source := Idl.Source.ofText "demo.thrift".toList "enum Color \x7b\x7d struct Point \x7b\x7d service Calc \x7b\x7d".toList
    let ctx : Context := ⟨"app".toList, source, "demo".toList, .ofSource source, .empty⟩
    let color := "demo.Color = \x7b'RED' : 0\x7d;\n".toList
    let point := "demo.Point = function() \x7b\x7d;\ndemo.Point.prototype.read = function(input) \x7b return; \x7d;\n".toList
    let client := "demo.CalcClient = function(o) \x7b\x7d;\ndemo.Calc_add_args = function() \x7b\x7d;\n".toList
    let foreign := "demo.Colors = \x7b\x7d;\ndemo.Point.prototypes.read = 1;\nother.Point = function() \x7b\x7d;\n".toList
    let script := color ++ point ++ client
    composeScript ctx (foreign ++ color ++ foreign ++ point ++ foreign ++ client) = composeScript ctx script ∧
      assignments (foreign ++ color ++ foreign ++ point ++ foreign ++ client) ctx.ns ≠ assignments script ctx.ns ∧
      composeScript ctx script = composeScript ctx (color ++ client ++ point) ∧
      (composeScript ctx script).missing = [] := by
  intro source ctx color point client foreign script
  have hconcerning : concerning ctx.symbols (assignments (foreign ++ color ++ foreign ++ point ++ foreign ++ client) ctx.ns) =
      concerning ctx.symbols (assignments script ctx.ns) := by decide +kernel
  have hpast : Reordered ctx.symbols
      (assignments color ctx.ns ++ assignments point ctx.ns ++ assignments client ctx.ns ++ [])
      (assignments color ctx.ns ++ assignments client ctx.ns ++ assignments point ctx.ns ++ []) :=
    Reordered.past (by decide +kernel : IsMovable ctx.symbols "Point".toList) (by decide +kernel) (by decide +kernel) _ _
  have hbefore : assignments color ctx.ns ++ assignments point ctx.ns ++ assignments client ctx.ns ++ [] =
      assignments script ctx.ns := by decide +kernel
  have hafter : assignments color ctx.ns ++ assignments client ctx.ns ++ assignments point ctx.ns ++ [] =
      assignments (color ++ client ++ point) ctx.ns := by decide +kernel
  rw [hbefore, hafter] at hpast
  exact ⟨(composeScript_foreign ctx _ _).1 hconcerning, by decide +kernel,
    (composeScript_foreign ctx _ _).2 (hpast.filter _), by decide +kernel⟩

end ThriftModules.Module
