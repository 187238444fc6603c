import ThriftModules.Proofs.Module.Blocks

/-!
# What a closure carries

* `Selects` : the elements of a list that have a property, each once and in order;
* `IsCodecOf`, `IsHelperOf`, `IsMemberOf` : the readers and writers of a type, the helpers of a service's calls, the
  prototype of a client and what is below it, read off the assigned path;
* `Assigns` : an assignment to a name or below it; a prototype takes none of a name that goes on behind its owner in any
  other way than by a dot (`not_assigns_of_prototype`);
* `closures_carry_members` : the closures of a script are their fixed lines and what they select of the assignments.
-/

namespace ThriftModules.Module

set_option autoImplicit false

open Idl (Source Symbols)
open Script (Assignment assignments)

/-! ## Selections -/

/-- The elements of a list that have a property, each once and in order. -/
inductive Selects {α : Type} (P : α → Prop) : List α → List α → Prop where
  | nil : Selects P [] []
  | take {x : α} {xs ys : List α} (holds : P x) (rest : Selects P xs ys) : Selects P (x :: xs) (x :: ys)
  | leave {x : α} {xs ys : List α} (fails : ¬P x) (rest : Selects P xs ys) : Selects P (x :: xs) ys

section
variable {α : Type} {P : α → Prop} {p : α → Bool}

theorem selects_filter (h : ∀ x, p x = true ↔ P x) (xs : List α) : Selects P xs (xs.filter p) := by
  induction xs with
  | nil => exact .nil
  | cons x xs ih =>
    cases hx : p x with
    | true =>
      rw [List.filter_cons_of_pos hx]
      exact .take ((h x).1 hx) ih
    | false =>
      rw [List.filter_cons_of_neg (by simp [hx])]
      exact .leave (fun hP => by simp [(h x).2 hP] at hx) ih

theorem Selects.unique {xs ys zs : List α} (h : Selects P xs ys) (h' : Selects P xs zs) : ys = zs := by
  induction h generalizing zs with
  | nil => cases h'; rfl
  | take holds _ ih =>
    cases h' with
    | take _ rest => rw [ih rest]
    | leave fails _ => exact absurd holds fails
  | leave fails _ ih =>
    cases h' with
    | take holds _ => exact absurd holds fails
    | leave _ rest => exact ih rest

theorem exists_selects_iff (h : ∀ x, p x = true ↔ P x) {xs : List α} {R : List α → Prop} :
    (∃ ys, Selects P xs ys ∧ R ys) ↔ R (xs.filter p) := by
  constructor
  · rintro ⟨ys, hys, hR⟩
    rwa [(selects_filter h xs).unique hys]
  · exact fun hR => ⟨_, selects_filter h xs, hR⟩

end

/-! ## Members -/

def IsCodecOf (owner : Text) (a : Assignment) : Prop :=
  ∃ member, a.target = owner ++ (".prototype.".toList ++ member) ∧
    ("read".toList <+: member ∨ "write".toList <+: member)

def IsHelperOf (service : Text) (a : Assignment) : Prop :=
  (service ++ ['_']) <+: a.root ∧ ∃ rest, a.value = .function rest

def IsMemberOf (owner : Text) (a : Assignment) : Prop :=
  a.target = owner ++ ".prototype".toList ∨ ∃ member, a.target = owner ++ (".prototype.".toList ++ member)

def Assigns (name : Text) (a : Assignment) : Prop := a.target = name ∨ (name ++ ['.']) <+: a.target

section
variable {owner other service : Text} {a : Assignment}

theorem isCodecMember_iff : isCodecMember owner a.target = true ↔ IsCodecOf owner a := by
  constructor
  · intro h
    unfold isCodecMember at h
    split at h
    · next member hafter =>
      rw [Bool.or_eq_true, Text.startsWith_iff, Text.startsWith_iff] at h
      exact ⟨member, by simpa using afterPrototype?_eq_some_iff.1 hafter, h⟩
    · cases h
  · rintro ⟨member, htarget, hmember⟩
    have hafter : afterPrototype? owner a.target = some ('.' :: member) :=
      afterPrototype?_eq_some_iff.2 (by simpa using htarget)
    simp only [isCodecMember, hafter, Bool.or_eq_true, Text.startsWith_iff]
    exact hmember

theorem isPrototypePath_iff : isPrototypePath owner a.target = true ↔ IsMemberOf owner a := by
  constructor
  · intro h
    refine (eq_or_prefix_of_isPrototypePath h).imp_right ?_
    rintro ⟨member, hmember⟩
    exact ⟨member, by simp [← hmember]⟩
  · rintro (htarget | ⟨member, htarget⟩)
    · have hafter : afterPrototype? owner a.target = some [] := afterPrototype?_eq_some_iff.2 (by simpa using htarget)
      simp only [isPrototypePath, hafter]
      rfl
    · have hafter : afterPrototype? owner a.target = some ('.' :: member) :=
        afterPrototype?_eq_some_iff.2 (by simpa using htarget)
      simp only [isPrototypePath, hafter]
      rfl

theorem isCallHelper_iff : isCallHelper service a = true ↔ IsHelperOf service a := by
  rw [isCallHelper, Bool.and_eq_true, Text.startsWith_iff, IsHelperOf]
  cases a.value <;> simp

theorem IsCodecOf.isMemberOf (h : IsCodecOf owner a) : IsMemberOf owner a :=
  let ⟨member, htarget, _⟩ := h
  .inr ⟨member, htarget⟩

theorem IsMemberOf.prefix_target (h : IsMemberOf owner a) : (owner ++ ".prototype".toList) <+: a.target := by
  rcases h with h | ⟨member, h⟩
  · exact h ▸ List.prefix_rfl
  · exact ⟨'.' :: member, by simp [h]⟩

/-- A prototype takes no assignment to or below another name that begins or ends with its owner, unless that name goes
on behind the owner with a dot. -/
theorem not_assigns_of_prototype (hmember : IsMemberOf owner a) (hne : other ≠ owner)
    (hnames : owner <+: other ∨ owner <:+ other) (hdot : ¬(owner ++ ['.']) <+: other) : ¬Assigns other a := by
  intro hassigns
  have hother : other <+: a.target :=
    hassigns.elim (fun h => h ▸ List.prefix_rfl) (List.prefix_append other ['.']).trans
  have howner : (owner ++ ['.']) <+: a.target :=
    List.IsPrefix.trans ⟨"prototype".toList, by simp⟩ hmember.prefix_target
  have hlt : owner.length < other.length := by
    refine Nat.lt_of_le_of_ne (hnames.elim List.IsPrefix.length_le List.IsSuffix.length_le) fun hlength => hne ?_
    exact (hnames.elim (·.eq_of_length hlength) (·.eq_of_length hlength)).symm
  exact hdot (List.prefix_of_prefix_length_le howner hother (by simpa using Nat.succ_le_of_lt hlt))

/-- A helper of a service's calls is not on the prototype of its client. -/
theorem IsHelperOf.not_isMemberOf (h : IsHelperOf service a) : ¬IsMemberOf (Symbols.clientOf service) a := by
  intro hmember
  have hhelper : (service ++ ['_']) <+: a.target := h.1.trans (List.takeWhile_prefix _)
  have hclient : Symbols.clientOf service <+: a.target := (List.prefix_append _ _).trans hmember.prefix_target
  have hboth := List.prefix_of_prefix_length_le hhelper hclient (by simp [Symbols.clientOf])
  rw [Symbols.clientOf, List.prefix_append_right_inj] at hboth
  exact absurd hboth (by decide)

end

/-! ## Closures -/

section
variable {symbols : Symbols} {found : List Assignment} {name service : Text} {lines : List Text}

theorem findFunction?_type {code : Text} :
    findFunction? found name = some code ↔ FirstSupplies found ⟨symbols.typeKind name, name⟩ code := by
  rw [← codeOf?_eq_some_iff, codeOf?, exportedName_type]
  rcases typeKind_cases symbols name with h | h <;> rw [h] <;> rfl

theorem findFunction?_service {code : Text} :
    findFunction? found (Symbols.clientOf service) = some code ↔ FirstSupplies found ⟨.service, service⟩ code := by
  rw [← codeOf?_eq_some_iff]
  rfl

theorem exportType_eq_ok_iff :
    exportType symbols found name = .ok lines ↔
      ∃ constructor, FirstSupplies found ⟨symbols.typeKind name, name⟩ constructor ∧
        lines = typeClosure found name constructor (symbols.isException name) := by
  simp only [← findFunction?_type]
  rw [exportType]
  cases findFunction? found name <;> simp [eq_comm]

theorem exportService_eq_ok_iff :
    exportService found service = .ok lines ↔
      ∃ constructor, FirstSupplies found ⟨.service, service⟩ constructor ∧
        lines = serviceClosure found service (Symbols.clientOf service) constructor := by
  simp only [← findFunction?_service]
  rw [exportService]
  cases findFunction? found (Symbols.clientOf service) <;> simp [eq_comm]

end

/-- A closure carries exactly its own members, in script order. The closure of a type is, between its fixed lines, the
lines that make it an exception if it is one and the assignments to its readers and writers; that of a service the
helpers of its calls as they stand in the script, and behind them the assignments to the prototype of its client and
below it. No helper is among the latter. Through its prototype nothing gets into a closure that is assigned to another
name, or below it, which only begins or ends with the name of the type or client. -/
theorem closures_carry_members (symbols : Symbols) (found : List Assignment) :
    (∀ name lines, exportType symbols found name = .ok lines ↔
      ∃ constructor codecs, FirstSupplies found ⟨symbols.typeKind name, name⟩ constructor ∧
        Selects (IsCodecOf name) found codecs ∧
        lines = [["exports.".toList, name, " = (function () \x7b function ".toList, name, constructor].flatten,
            name ++ ".prototype = \x7b\x7d;".toList] ++
          (if name ∈ symbols.exceptions then exceptionLines name else []) ++
          codecs.map (·.unqualified ++ [';']) ++ closureEnd name) ∧
    (∀ service lines, exportService found service = .ok lines ↔
      ∃ constructor helpers members, FirstSupplies found ⟨.service, service⟩ constructor ∧
        Selects (IsHelperOf service) found helpers ∧ Selects (IsMemberOf (Symbols.clientOf service)) found members ∧
        lines = [["exports.".toList, Symbols.clientOf service, " = (function () \x7b".toList].flatten,
            ["function ".toList, Symbols.clientOf service, constructor].flatten] ++
          helpers.map (·.statement ++ [';']) ++ members.map (·.unqualified ++ [';']) ++
          closureEnd (Symbols.clientOf service)) ∧
    (∀ service a, IsHelperOf service a → ¬IsMemberOf (Symbols.clientOf service) a) ∧
    ∀ owner other a, IsCodecOf owner a ∨ IsMemberOf owner a → other ≠ owner → owner <+: other ∨ owner <:+ other →
      ¬(owner ++ ['.']) <+: other → ¬Assigns other a := by
  refine ⟨fun name lines => ?_, fun service lines => ?_, fun _ _ h => h.not_isMemberOf,
    fun _ _ _ h => not_assigns_of_prototype (h.elim IsCodecOf.isMemberOf id)⟩
  · rw [exportType_eq_ok_iff]
    refine exists_congr fun constructor => ?_
    rw [exists_and_left, exists_selects_iff fun _ => isCodecMember_iff, typeClosure, Symbols.isException]
    simp only [decide_eq_true_eq]
    rfl
  · rw [exportService_eq_ok_iff]
    refine exists_congr fun constructor => ?_
    simp only [exists_and_left]
    rw [exists_selects_iff fun _ => isCallHelper_iff, exists_selects_iff fun _ => isPrototypePath_iff]
    rfl

/-- Two types of which the name of one begins with that of the other: each closure has its own reader. -/
theorem closures_carry_members_point :
    let source := Source.ofText "demo.thrift".toList "struct Point \x7b\x7d exception Point3 \x7b\x7d".toList
    let found := assignments ("demo.Point = function() \x7b\x7d;\ndemo.Point3 = function() \x7b\x7d;\n" ++
      "demo.Point3.prototype.read = function(i) \x7b\x7d;\ndemo.Point.prototype.name = 'p';\n" ++
      "demo.Point.prototype.write = function(o) \x7b\x7d;\n").toList "demo".toList
    exportType (.ofSource source) found "Point".toList = .ok
        ["exports.Point = (function () \x7b function Point() \x7b\x7d".toList, "Point.prototype = \x7b\x7d;".toList,
          "Point.prototype.write = function(o) \x7b\x7d;".toList, "return Point;".toList, "\x7d)();".toList, []] ∧
      (∀ lines, exportType (.ofSource source) found "Point3".toList = .ok lines →
        "Thrift.inherits(Point3, Thrift.TException);".toList ∈ lines) ∧
      ∀ a ∈ found, IsCodecOf "Point".toList a → ¬Assigns "Point3".toList a := by
  intro source found
  obtain ⟨htypes, -, -, hnames⟩ := closures_carry_members (.ofSource source) found
  refine ⟨by decide +kernel, fun lines h => ?_, fun a _ h => ?_⟩
  · obtain ⟨constructor, codecs, -, -, rfl⟩ := (htypes _ _).1 h
    have hexception : "Point3".toList ∈ (Symbols.ofSource source).exceptions := by decide +kernel
    rw [if_pos hexception]
    simp [exceptionLines]
  · exact hnames "Point".toList "Point3".toList a (.inl h) (by decide) (.inl (by decide)) (by decide)

end ThriftModules.Module
