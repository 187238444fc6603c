import ThriftModules.Proofs.Module.Exports

/-!
# Every declared name is exported or reported

* `Supplies`, `FirstSupplies` : the assignments that hold the code of a declared name, and the first of them;
* `linesOf` : the lines that export a declared name with its code;
* `Accounts` : a list of names against the blocks of those that have code and the list of those that have none;
* `accounts_exports` : the exports of a script account for all declared names;
* `composeScript_accounts` : a script module is its imports and these blocks, and reports exactly the other names.
-/

namespace ThriftModules.Module

set_option autoImplicit false

open Idl (Symbols Kind)
open Script (Assignment Value)

/-! ## The code of a declared name -/

/-- How the code of a declared name is assigned: an enum is an object, everything else a function. -/
def assignedValue (m : Missing) (code : Text) : Value :=
  if m.kind = .enumeration then .object code else .function code

/-- An assignment to exactly the exported name, of the class that the declaration asks for. -/
def Supplies (m : Missing) (a : Assignment) (code : Text) : Prop :=
  a.target = exportedName m ∧ a.value = assignedValue m code

/-- The code of a declared name, from the first assignment that holds it. -/
def FirstSupplies (found : List Assignment) (m : Missing) (code : Text) : Prop :=
  ∃ before a after, found = before ++ a :: after ∧ Supplies m a code ∧ ∀ b ∈ before, ∀ other, ¬Supplies m b other

def codeOf? (found : List Assignment) (m : Missing) : Option Text :=
  if m.kind = .enumeration then findObject? found m.name else findFunction? found (exportedName m)

section
variable {found : List Assignment} {m : Missing} {code : Text}

/-- A search that takes from each assignment what it supplies, if anything. -/
theorem exists_search (found : List Assignment) (m : Missing) :
    ∃ code? : Assignment → Option Text,
      codeOf? found m = found.findSome? code? ∧ ∀ a code, code? a = some code ↔ Supplies m a code := by
  rw [codeOf?]
  by_cases hkind : m.kind = .enumeration
  · rw [if_pos hkind]
    have hname : exportedName m = m.name := by rw [exportedName, hkind]; rfl
    refine ⟨_, rfl, fun a code => ?_⟩
    rw [Supplies, assignedValue, if_pos hkind, hname]
    cases a.value <;> simp
  · rw [if_neg hkind]
    refine ⟨_, rfl, fun a code => ?_⟩
    rw [Supplies, assignedValue, if_neg hkind]
    cases a.value <;> simp

theorem codeOf?_eq_some_iff : codeOf? found m = some code ↔ FirstSupplies found m code := by
  obtain ⟨code?, hsearch, hcode⟩ := exists_search found m
  rw [hsearch, List.findSome?_eq_some_iff, FirstSupplies]
  have hnone : ∀ b, code? b = none ↔ ∀ other, ¬Supplies m b other := fun b => by
    rw [Option.eq_none_iff_forall_ne_some]
    exact forall_congr' fun other => not_congr (hcode b other)
  simp only [hcode, hnone]

theorem codeOf?_eq_none_iff : codeOf? found m = none ↔ ∀ a ∈ found, ∀ code, ¬Supplies m a code := by
  obtain ⟨code?, hsearch, hcode⟩ := exists_search found m
  rw [hsearch, List.findSome?_eq_none_iff]
  refine forall₂_congr fun a _ => ?_
  rw [Option.eq_none_iff_forall_ne_some]
  exact forall_congr' fun other => not_congr (hcode a other)

/-! ## The export of a declared name -/

def linesOf (found : List Assignment) (m : Missing) (code : Text) : List Text :=
  match m.kind with
  | .enumeration => [enumExport m.name code]
  | .struct => typeClosure found m.name code false
  | .exception => typeClosure found m.name code true
  | .service => serviceClosure found m.name (Symbols.clientOf m.name) code

theorem exportOf_eq {symbols : Symbols} (found : List Assignment) (hm : m ∈ declared symbols) :
    exportOf symbols found m = match codeOf? found m with
      | some code => .ok (linesOf found m code)
      | none => .error m := by
  simp only [declared, List.mem_append, List.mem_map] at hm
  rcases hm with (⟨name, -, rfl⟩ | ⟨name, -, rfl⟩) | ⟨name, -, rfl⟩
  · rfl
  · -- the flag of the closure is the kind that the name is declared under
    rw [exportOf_type, exportType, Symbols.typeKind]
    cases symbols.isException name <;> rfl
  · rfl

end

/-! ## All of them -/

/-- Each name in turn either has its block, made from the first assignment that holds its code, or is reported because
none does. -/
inductive Accounts (found : List Assignment) : List Missing → List (List Text) → List Missing → Prop where
  | nil : Accounts found [] [] []
  | exported {m : Missing} {code : Text} {names missing : List Missing} {blocks : List (List Text)}
      (supplied : FirstSupplies found m code) (rest : Accounts found names blocks missing) :
      Accounts found (m :: names) (linesOf found m code :: blocks) missing
  | reported {m : Missing} {names missing : List Missing} {blocks : List (List Text)}
      (none : ∀ a ∈ found, ∀ code, ¬Supplies m a code) (rest : Accounts found names blocks missing) :
      Accounts found (m :: names) blocks (m :: missing)

section
variable {found : List Assignment} {names missing missing' : List Missing} {blocks blocks' : List (List Text)}

theorem Accounts.unique (h : Accounts found names blocks missing) (h' : Accounts found names blocks' missing') :
    blocks = blocks' ∧ missing = missing' := by
  induction h generalizing blocks' missing' with
  | nil => cases h'; exact ⟨rfl, rfl⟩
  | exported supplied rest ih =>
    have hcode := codeOf?_eq_some_iff.2 supplied
    cases h' with
    | exported supplied' rest' =>
      obtain ⟨rfl, rfl⟩ := ih rest'
      rw [Option.some.inj (hcode.symm.trans (codeOf?_eq_some_iff.2 supplied'))]
      exact ⟨rfl, rfl⟩
    | reported none' rest' => cases hcode.symm.trans (codeOf?_eq_none_iff.2 none')
  | reported none rest ih =>
    have hcode := codeOf?_eq_none_iff.2 none
    cases h' with
    | exported supplied' rest' => cases hcode.symm.trans (codeOf?_eq_some_iff.2 supplied')
    | reported none' rest' =>
      obtain ⟨rfl, rfl⟩ := ih rest'
      exact ⟨rfl, rfl⟩

theorem accounts_exports (symbols : Symbols) (found : List Assignment)
    (hnames : ∀ m ∈ names, m ∈ declared symbols) :
    ∃ blocks, Accounts found names blocks ((names.map (exportOf symbols found)).filterMap Export.missing?) ∧
      (names.map (exportOf symbols found)).flatMap Export.lines = blocks.flatten := by
  induction names with
  | nil => exact ⟨[], .nil, rfl⟩
  | cons m names ih =>
    obtain ⟨blocks, haccounts, hlines⟩ := ih fun n hn => hnames n (List.mem_cons_of_mem m hn)
    have hexport := exportOf_eq found (hnames m List.mem_cons_self)
    cases hcode : codeOf? found m with
    | some code =>
      rw [hcode] at hexport
      refine ⟨linesOf found m code :: blocks, ?_, ?_⟩
      · rw [List.map_cons, hexport]
        exact .exported (codeOf?_eq_some_iff.1 hcode) haccounts
      · rw [List.map_cons, hexport, List.flatMap_cons, hlines]
        rfl
    | none =>
      rw [hcode] at hexport
      refine ⟨blocks, ?_, ?_⟩
      · rw [List.map_cons, hexport]
        exact .reported (codeOf?_eq_none_iff.1 hcode) haccounts
      · rw [List.map_cons, hexport, List.flatMap_cons, hlines]
        rfl

end

/-! ## Imports -/

section
variable {ctx : Context} {ns ns' : Namespace}

theorem importLine_eq (ctx : Context) (ns : Namespace) :
    importLine ctx ns = "var ".toList ++ (ns ++ (" = require ('".toList ++ ctx.modulePath ns ++ "');".toList)) := by
  simp [importLine]

theorem mem_importedNamespaces :
    ns ∈ ctx.includes.namespaces.insert ctx.ns ↔ ns = ctx.ns ∨ ∃ edge ∈ ctx.includes.edges, edge.target = ns := by
  rw [NameSet.mem_insert, Idl.Includes.namespaces, NameSet.mem_ofList, List.mem_map]

theorem importLine_injective (ctx : Context) : Function.Injective (importLine ctx) := by
  intro ns ns' h
  have hlength := congrArg List.length h
  simp only [importLine_eq, Context.modulePath, List.length_append, List.length_cons] at hlength
  rw [importLine_eq, importLine_eq, List.append_cancel_left_eq] at h
  exact List.append_inj_left h (by omega)

theorem blank_lt_of_isNamespaceChar {c : Char} (h : Idl.isNamespaceChar c = true) : ' ' < c := by
  rw [Char.lt_def, UInt32.lt_iff_toNat_lt]
  rcases Bool.or_eq_true_iff.1 h with h | h
  · exact Nat.lt_of_lt_of_le (by decide) (Text.toNat_of_isWordChar h).1
  · rw [beq_iff_eq] at h
    subst h
    decide

theorem append_blank_lt {s t u v : Text} (ht : ∀ c ∈ t, ' ' < c) (h : s < t) : s ++ ' ' :: u < t ++ ' ' :: v := by
  induction s generalizing t with
  | nil =>
    cases t with
    | nil => cases h
    | cons c t => exact List.cons_lt_cons_iff.2 (.inl (ht c List.mem_cons_self))
  | cons a s ih =>
    cases t with
    | nil => cases h
    | cons c t =>
      refine List.cons_lt_cons_iff.2 ((List.cons_lt_cons_iff.1 h).imp_right fun ⟨hac, hst⟩ => ⟨hac, ?_⟩)
      exact ih (fun d hd => ht d (List.mem_cons_of_mem c hd)) hst

/-- Imports are in the order of their namespaces, since a blank comes before every character of a namespace. -/
theorem importLine_lt (hns : ∀ c ∈ ns', Idl.isNamespaceChar c = true) (h : ns < ns') :
    importLine ctx ns < importLine ctx ns' := by
  rw [importLine_eq, importLine_eq]
  have hbehind := append_blank_lt (u := "= require ('".toList ++ ctx.modulePath ns ++ "');".toList)
    (v := "= require ('".toList ++ ctx.modulePath ns' ++ "');".toList)
    (fun c hc => blank_lt_of_isNamespaceChar (hns c hc)) h
  exact List.append_left_lt hbehind

end

/-! ## The module -/

/-- Every declared name is exported or reported, once and in order. A script module is the imports of the included
namespaces and the own one, in order, and behind them one block for each declared name whose code some assignment holds:
first enums, then types, an exception being any name declared as one, then services, each by name; the block is made
from the first such assignment. The declared names without one are reported, in the same order. -/
theorem composeScript_accounts (ctx : Context) (script : Text) :
    ∃ (spaces : List Namespace) (enums types services : List Text) (blocks : List (List Text)),
      (spaces.Pairwise (· < ·) ∧
        ∀ ns, ns ∈ spaces ↔ ns = ctx.ns ∨ ∃ edge ∈ ctx.includes.edges, edge.target = ns) ∧
      (enums.Pairwise (· < ·) ∧ ∀ name, name ∈ enums ↔ name ∈ ctx.symbols.enums) ∧
      (types.Pairwise (· < ·) ∧
        ∀ name, name ∈ types ↔ name ∈ ctx.symbols.structs ∨ name ∈ ctx.symbols.exceptions) ∧
      (services.Pairwise (· < ·) ∧ ∀ name, name ∈ services ↔ name ∈ ctx.symbols.services) ∧
      Accounts (Script.assignments script ctx.ns)
        (enums.map (⟨.enumeration, ·⟩) ++
          types.map (fun name => ⟨if name ∈ ctx.symbols.exceptions then .exception else .struct, name⟩) ++
          services.map (⟨.service, ·⟩))
        blocks (composeScript ctx script).missing ∧
      (composeScript ctx script).text = Text.unlines (spaces.map (importLine ctx) ++ blocks.flatten) ∧
      (spaces.map (importLine ctx)).Nodup ∧
      ((∀ ns ∈ spaces, ∀ c ∈ ns, Idl.isNamespaceChar c = true) →
        (spaces.map (importLine ctx)).Pairwise (· < ·)) := by
  let spaces := ctx.includes.namespaces.insert ctx.ns
  have hdeclared : declared ctx.symbols = ctx.symbols.enums.toList.map (⟨.enumeration, ·⟩) ++
      ctx.symbols.types.toList.map (fun name => ⟨if name ∈ ctx.symbols.exceptions then .exception else .struct, name⟩) ++
      ctx.symbols.services.toList.map (⟨.service, ·⟩) := by
    simp only [declared, Symbols.typeKind, Symbols.isException, decide_eq_true_eq]
  obtain ⟨blocks, haccounts, hlines⟩ :=
    accounts_exports ctx.symbols (Script.assignments script ctx.ns) fun _ hm => hm
  rw [← exports_eq] at haccounts hlines
  rw [hdeclared] at haccounts
  refine ⟨spaces.toList, ctx.symbols.enums.toList, ctx.symbols.types.toList, ctx.symbols.services.toList, blocks,
    ⟨spaces.sorted, fun ns => mem_importedNamespaces⟩, ⟨ctx.symbols.enums.sorted, fun _ => Iff.rfl⟩,
    ⟨ctx.symbols.types.sorted, fun _ => Symbols.mem_types⟩, ⟨ctx.symbols.services.sorted, fun _ => Iff.rfl⟩,
    haccounts, ?_, ?_, fun hns => ?_⟩
  · rw [← hlines]
    rfl
  · rw [List.Nodup, List.pairwise_map]
    refine spaces.sorted.imp fun {ns ns'} h e => ?_
    rw [importLine_injective ctx e] at h
    exact List.lt_irrefl ns' h
  · rw [List.pairwise_map]
    exact spaces.sorted.imp_of_mem fun _ hns' h => importLine_lt (hns _ hns') h

end ThriftModules.Module
