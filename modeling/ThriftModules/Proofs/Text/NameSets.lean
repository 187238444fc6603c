import Mathlib.Data.List.Sort
import Mathlib.Data.Set.Card
import ThriftModules.Text.NameSet

/-!
# Sets of names and their members

* `eq_of_mem_iff` : a set of names is determined by its members;
* `finite_members`, `ncard_members` : it has finitely many, as many as its list is long;
* `members_eq_singleton_iff` : it has one alone exactly if its list does.
-/

namespace ThriftModules.NameSet

set_option autoImplicit false

variable {s t : NameSet}

theorem eq_of_mem_iff (h : ∀ x, x ∈ s ↔ x ∈ t) : s = t := by
  have : Std.Irrefl (fun a b : Text => a < b) := ⟨fun a => List.lt_irrefl a⟩
  have hlist : s.toList = t.toList := s.sorted.eq_of_mem_iff t.sorted h
  cases s
  cases t
  cases hlist
  rfl

theorem nodup_toList (s : NameSet) : s.toList.Nodup := by
  have : Std.Irrefl (fun a b : Text => a < b) := ⟨fun a => List.lt_irrefl a⟩
  exact s.sorted.nodup

def members (s : NameSet) : Set Text := {x | x ∈ s}

theorem members_eq_coe (s : NameSet) : s.members = (s.toList.toFinset : Set Text) := by
  ext x
  simp [members, mem_def]

theorem finite_members (s : NameSet) : s.members.Finite := by
  rw [members_eq_coe]
  exact Finset.finite_toSet _

theorem ncard_members (s : NameSet) : s.members.ncard = s.size := by
  rw [members_eq_coe, Set.ncard_coe_finset, List.toFinset_card_of_nodup s.nodup_toList]
  rfl

theorem members_eq_singleton_iff {x : Text} : s.members = {x} ↔ s.toList = [x] := by
  constructor
  · intro h
    have hsingle : s = (∅ : NameSet).insert x := eq_of_mem_iff fun y => by
      simpa [members] using Set.ext_iff.1 h y
    rw [hsingle]
    rfl
  · intro h
    ext y
    simp [members, mem_def, h]

end ThriftModules.NameSet
