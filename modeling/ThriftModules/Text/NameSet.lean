import ThriftModules.Text.Basic

/-!
# Sets of names

* `NameSet` : a finite set of texts, kept in strictly increasing order, so each name once;
* `insertName` : the sorted insertion that `NameSet.insert` is made of (`mem_insertName`, `insertName_sorted`);
* `mem_insert`, `mem_ofList`, `mem_union` : membership, operation by operation.
-/

namespace ThriftModules

set_option autoImplicit false

/-! ## Sorted insertion -/

/-- `name` put into an increasing list at its place; a name that is there already stays once. -/
def insertName (name : Text) : List Text → List Text
  | [] => [name]
  | other :: rest =>
    if name < other then name :: other :: rest
    else if name = other then other :: rest
    else other :: insertName name rest

theorem mem_insertName {name x : Text} {names : List Text} :
    x ∈ insertName name names ↔ x = name ∨ x ∈ names := by
  fun_induction insertName name names <;> simp_all
  grind

theorem insertName_sorted {name : Text} {names : List Text} (h : names.Pairwise (· < ·)) :
    (insertName name names).Pairwise (· < ·) := by
  fun_induction insertName name names with
  | case1 => simp
  | case2 other rest hlt =>
    refine List.pairwise_cons.2 ⟨fun x hx => ?_, h⟩
    rcases List.mem_cons.1 hx with rfl | hx
    · exact hlt
    · exact List.lt_trans hlt ((List.pairwise_cons.1 h).1 x hx)
  | case3 => exact h
  | case4 other rest hlt hne ih =>
    obtain ⟨ho, hr⟩ := List.pairwise_cons.1 h
    refine List.pairwise_cons.2 ⟨fun x hx => ?_, ih hr⟩
    rcases mem_insertName.1 hx with rfl | hx
    · exact Decidable.byContradiction fun hn => hne (List.le_antisymm (List.not_lt.1 hn) (List.not_lt.1 hlt))
    · exact ho x hx

/-! ## The set -/

/-- A finite set of names, in increasing order. -/
structure NameSet where
  toList : List Text
  sorted : toList.Pairwise (· < ·)

namespace NameSet

instance : EmptyCollection NameSet := ⟨⟨[], .nil⟩⟩

instance : Inhabited NameSet := ⟨∅⟩

instance : Membership Text NameSet := ⟨fun s x => x ∈ s.toList⟩

instance (x : Text) (s : NameSet) : Decidable (x ∈ s) := inferInstanceAs (Decidable (x ∈ s.toList))

def insert (s : NameSet) (name : Text) : NameSet := ⟨insertName name s.toList, insertName_sorted s.sorted⟩

def ofList (names : List Text) : NameSet := names.foldl insert ∅

def union (s t : NameSet) : NameSet := t.toList.foldl insert s

def size (s : NameSet) : Nat := s.toList.length

/-! ## Membership -/

theorem mem_def {x : Text} {s : NameSet} : x ∈ s ↔ x ∈ s.toList := Iff.rfl

@[simp] theorem not_mem_empty (x : Text) : x ∉ (∅ : NameSet) := List.not_mem_nil

@[simp] theorem mem_insert {x name : Text} {s : NameSet} : x ∈ s.insert name ↔ x = name ∨ x ∈ s := mem_insertName

theorem mem_foldl_insert {x : Text} (names : List Text) (s : NameSet) :
    x ∈ names.foldl insert s ↔ x ∈ s ∨ x ∈ names := by
  induction names generalizing s with
  | nil => simp
  | cons name rest ih => simp only [List.foldl_cons, ih, mem_insert, List.mem_cons]; grind

@[simp] theorem mem_ofList {x : Text} {names : List Text} : x ∈ ofList names ↔ x ∈ names := by
  simp [ofList, mem_foldl_insert]

@[simp] theorem mem_union {x : Text} {s t : NameSet} : x ∈ s.union t ↔ x ∈ s ∨ x ∈ t :=
  mem_foldl_insert t.toList s

end NameSet
end ThriftModules
