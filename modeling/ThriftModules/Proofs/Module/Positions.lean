import Mathlib.Data.List.Basic
import ThriftModules.Proofs.Idl.Literals
import ThriftModules.Proofs.Module.Removal
import ThriftModules.Proofs.Text.Found

/-!
# The positions at which a qualifier is removed

* `RemovedAt` : a qualifier occurs at a position of the line, starts a path there, and is not kept behind a quote;
* `IsCovered` : a position inside a removed qualifier;
* `not_removedAt_inside` : no qualifier is removed inside another occurrence of it, which is part of one path;
* `filter_removedAt_of_occurs` : so a search that goes on behind the occurrence misses none;
* `removeFrom_eq_filter` : a pass keeps the characters that no removed qualifier covers;
* `filter_sites` : the search meets the positions at which the qualifier is removed, each once and in order;
* `qualifier_occurrences` : the removal of a qualifier and the search for references see the same occurrences.

Both searches go on behind each occurrence that they meet, so they can jump over one that overlaps it. That one stands
inside a path, and none is missed at which something is removed.
-/

namespace ThriftModules.Module

set_option autoImplicit false

/-- `qualifier.` occurs at position `i` of the line and starts a path there; if it is kept behind quotes, no quote
stands in front of it. -/
def RemovedAt (quoted : Quoted) (qualifier line : Text) (i : Nat) : Prop :=
  qualifier ++ ['.'] <+: line.drop i ∧
    ∀ c ∈ (line.take i).getLast?, Text.isIdentChar c = false ∧ c ≠ '.' ∧ (quoted = .kept → Text.isQuote c = false)

/-- Position `i` of the line is one of a removed qualifier. -/
def IsCovered (quoted : Quoted) (qualifier line : Text) (i : Nat) : Prop :=
  ∃ j < i + 1, RemovedAt quoted qualifier line j ∧ i < j + (qualifier.length + 1)

-- spelled out, since a search can come to the instance that tries every character
instance (quoted : Quoted) (qualifier line : Text) (i : Nat) : Decidable (RemovedAt quoted qualifier line i) :=
  @instDecidableAnd _ _ inferInstance (Option.decidableForallMem _)

instance (quoted : Quoted) (qualifier line : Text) (i : Nat) : Decidable (IsCovered quoted qualifier line i) :=
  inferInstanceAs (Decidable (∃ j < i + 1, _ ∧ _))

section
variable {quoted : Quoted} {qualifier line : Text}

/-! ## One position -/

theorem removedAt_length_iff {done t : Text} :
    RemovedAt quoted qualifier (done ++ t) done.length ↔
      qualifier ++ ['.'] <+: t ∧ quoted.removes ⟨[], done.getLast?, t⟩ = true := by
  rw [RemovedAt, List.drop_left, List.take_left, Quoted.removes]
  refine and_congr_right fun _ => ?_
  cases done.getLast? with
  | none => simp [startsPath]
  | some c => cases quoted <;> simp [startsPath, and_assoc]

theorem cut_eq (done t : Text) :
    (if startsPath done.getLast? then qualifierLength qualifier quoted done.getLast? t else 0) =
      if RemovedAt quoted qualifier (done ++ t) done.length then qualifier.length + 1 else 0 := by
  have hiff : RemovedAt quoted qualifier (done ++ t) done.length ↔ _ := removedAt_length_iff
  rw [← Text.startsWith_iff, Quoted.removes] at hiff
  rw [qualifierLength]
  simp only [hiff]
  cases startsPath done.getLast? <;> simp

theorem not_removedAt_inside (hq : ∀ c ∈ qualifier, isPathChar c = true) {i j : Nat}
    (h : qualifier ++ ['.'] <+: line.drop j) (hlt : j < i) (hle : i < j + (qualifier.length + 1)) :
    ¬RemovedAt quoted qualifier line i := by
  rintro ⟨-, hbefore⟩
  obtain ⟨rest, hrest⟩ := h
  have hlen : i - j ≤ (qualifier ++ ['.']).length := by
    rw [List.length_append, List.length_singleton]
    omega
  have htake : line.take i = line.take j ++ (qualifier ++ ['.']).take (i - j) := by
    rw [← Nat.add_sub_cancel' hlt.le, List.take_add, ← hrest, List.take_append_of_le_length (by omega),
      Nat.add_sub_cancel_left]
  have hne : (qualifier ++ ['.']).take (i - j) ≠ [] := by
    rw [← List.length_pos_iff, List.length_take_of_le hlen]
    omega
  obtain ⟨c, hc⟩ := List.getLast?_isSome.2 hne |> Option.isSome_iff_exists.1
  rw [htake, List.getLast?_append_of_ne_nil _ hne, hc] at hbefore
  obtain ⟨hident, hdot, -⟩ := hbefore c rfl
  have hpath := isPathChar_of_mem_needle hq c (List.mem_of_mem_take (List.mem_of_getLast? hc))
  rw [isPathChar, hident, Bool.false_or, beq_iff_eq] at hpath
  exact hdot hpath

/-! ## The pass -/

/-- A pass keeps the characters that no removed qualifier covers. It has gone through `done`, and the next `skip`
characters belong to a qualifier that it removes. -/
theorem removeFrom_eq_filter (hq : ∀ c ∈ qualifier, isPathChar c = true) (done t : Text) (skip : Nat)
    (hskip : ∀ i, done.length ≤ i → i < done.length + skip →
      IsCovered quoted qualifier (done ++ t) i ∧ ¬RemovedAt quoted qualifier (done ++ t) i)
    (hdone : ∀ j < done.length, RemovedAt quoted qualifier (done ++ t) j →
      j + (qualifier.length + 1) ≤ done.length + skip) :
    removeFrom (qualifierLength qualifier quoted) done.getLast? skip t =
      ((t.zipIdx done.length).filter fun x => ¬IsCovered quoted qualifier (done ++ t) x.2).map Prod.fst := by
  induction t generalizing done skip with
  | nil => rw [removeFrom]; rfl
  | cons c r ih =>
    have hline : done ++ c :: r = (done ++ [c]) ++ r := by simp
    have hlen : (done ++ [c]).length = done.length + 1 := by simp
    have ih := ih (done ++ [c])
    rw [List.getLast?_concat, hlen, ← hline] at ih
    rw [List.zipIdx_cons]
    cases skip with
    | succ skip =>
      obtain ⟨hcovered, hnot⟩ := hskip done.length (Nat.le_refl _) (by omega)
      rw [List.filter_cons_of_neg (by simpa using hcovered), removeFrom]
      refine ih skip (fun i hi hi' => hskip i (by omega) (by omega)) fun j hj hremoved => ?_
      rcases Nat.lt_succ_iff_lt_or_eq.1 hj with hj | rfl
      · have := hdone j hj hremoved
        omega
      · exact absurd hremoved hnot
    | zero =>
      rw [removeFrom, cut_eq]
      by_cases hremoved : RemovedAt quoted qualifier (done ++ c :: r) done.length
      · have hcovered : IsCovered quoted qualifier (done ++ c :: r) done.length :=
          ⟨done.length, by omega, hremoved, by omega⟩
        rw [List.filter_cons_of_neg (by simpa using hcovered), if_pos hremoved]
        refine ih qualifier.length (fun i hi hi' => ?_) fun j hj hj' => ?_
        · exact ⟨⟨done.length, by omega, hremoved, by omega⟩,
            not_removedAt_inside hq hremoved.1 (by omega) (by omega)⟩
        · rcases Nat.lt_succ_iff_lt_or_eq.1 hj with hj | rfl
          · have := hdone j hj hj'
            omega
          · omega
      · have hfree : ¬IsCovered quoted qualifier (done ++ c :: r) done.length := by
          rintro ⟨j, hj, hj', hlt⟩
          rcases Nat.lt_succ_iff_lt_or_eq.1 hj with hj | rfl
          · have := hdone j hj hj'
            omega
          · exact hremoved hj'
        rw [List.filter_cons_of_pos (by simpa using hfree), if_neg hremoved, List.map_cons]
        refine congrArg (c :: ·) (ih 0 (fun i hi hi' => by omega) fun j hj hj' => ?_)
        rcases Nat.lt_succ_iff_lt_or_eq.1 hj with hj | rfl
        · have := hdone j hj hj'
          omega
        · exact absurd hj' hremoved

/-! ## The search -/

/-- Of the positions of an occurrence only its first can be one at which the qualifier is removed. -/
theorem filter_removedAt_of_occurs (hq : ∀ c ∈ qualifier, isPathChar c = true) {i : Nat}
    (h : qualifier ++ ['.'] <+: line.drop i) (n : Nat) :
    (List.range' i (qualifier.length + 1 + n)).filter (RemovedAt quoted qualifier line ·) =
      (if RemovedAt quoted qualifier line i then [i] else []) ++
        (List.range' (i + (qualifier.length + 1)) n).filter (RemovedAt quoted qualifier line ·) := by
  have hinside : (List.range' (i + 1) qualifier.length).filter (RemovedAt quoted qualifier line ·) = [] := by
    refine List.filter_eq_nil_iff.2 fun j hj => ?_
    obtain ⟨hle, hlt⟩ := List.mem_range'_1.1 hj
    simpa using not_removedAt_inside hq h hle (by omega)
  rw [← List.range'_append_1, List.filter_append, List.range'_succ, List.filter_cons, hinside]
  simp only [decide_eq_true_eq]

/-- The sites at which the qualifier is removed are the positions at which it is, in order. -/
theorem filter_sites (quoted : Quoted) (hq : ∀ c ∈ qualifier, isPathChar c = true) (done t : Text) :
    ((Text.sites (qualifier ++ ['.']) done.getLast? t).filter fun s => quoted.removes ⟨[], s.1, s.2⟩).map Prod.snd =
      ((List.range' done.length t.length).filter (RemovedAt quoted qualifier (done ++ t) ·)).map
        fun i => (done ++ t).drop (i + (qualifier.length + 1)) := by
  have hn : qualifier ++ ['.'] ≠ [] := by simp
  cases t with
  | nil =>
    rw [Text.sites_nil hn]
    rfl
  | cons c r =>
    cases hs : Text.stripStart? (qualifier ++ ['.']) (c :: r) with
    | none =>
      have hnot : ¬RemovedAt quoted qualifier (done ++ c :: r) done.length := by
        rw [removedAt_length_iff, ← Text.startsWith_iff, Text.startsWith, hs]
        exact fun h => Bool.false_ne_true h.1
      have hrest := filter_sites quoted hq (done ++ [c]) r
      rw [List.getLast?_concat, List.length_append, List.length_singleton, List.append_assoc, List.singleton_append]
        at hrest
      rw [Text.sites_cons_of_none hn hs, hrest, List.length_cons, List.range'_succ,
        List.filter_cons_of_neg (by simpa using hnot)]
    | some after =>
      have hsplit := Text.stripStart?_eq_some_iff.1 hs
      have hfirst : Text.splitFirst? (qualifier ++ ['.']) (c :: r) = some ([], after) := by
        rw [Text.splitFirst?, hs]
      have hlen : after.length < r.length + 1 := by
        rw [← List.length_cons (a := c), hsplit, List.length_append, List.length_append, List.length_singleton]
        omega
      have hrest := filter_sites quoted hq (done ++ (qualifier ++ ['.'])) after
      rw [List.getLast?_append_of_ne_nil _ hn, List.length_append, List.append_assoc, ← hsplit] at hrest
      have hoccurs : qualifier ++ ['.'] <+: (done ++ c :: r).drop done.length := by
        rw [List.drop_left, hsplit]
        exact List.prefix_append _ _
      have hlength : (c :: r).length = qualifier.length + 1 + after.length := by
        rw [hsplit, List.length_append, List.length_append, List.length_singleton]
      have hdrop : (done ++ c :: r).drop (done.length + (qualifier.length + 1)) = after := by
        rw [← List.drop_drop, List.drop_left, hsplit]
        exact List.drop_left' (by simp)
      have hremoved : RemovedAt quoted qualifier (done ++ c :: r) done.length ↔
          quoted.removes ⟨[], done.getLast?, after⟩ = true :=
        removedAt_length_iff.trans (and_iff_right (hsplit ▸ List.prefix_append _ _))
      rw [Text.sites_of_some hn hfirst, List.getLast?_nil, Option.none_or, hlength,
        filter_removedAt_of_occurs hq hoccurs, List.map_append, List.filter_cons]
      by_cases h : quoted.removes ⟨[], done.getLast?, after⟩ = true
      · rw [if_pos h, if_pos (hremoved.2 h), List.map_cons, hrest, List.map_singleton, hdrop]
        simp
      · rw [if_neg h, if_neg (mt hremoved.1 h), hrest]
        simp
termination_by t.length

end

/-- The removal of a qualifier takes from the line exactly its occurrences at the start of a path, those behind a quote
apart where these are kept; and the references are the words behind the occurrences so removed, in order. -/
theorem qualifier_occurrences {qualifier : Text} (hq : ∀ c ∈ qualifier, isPathChar c = true) (line : Text) :
    (∀ quoted, stripQualifier qualifier quoted line =
      (line.zipIdx.filter fun x => ¬IsCovered quoted qualifier line x.2).map Prod.fst) ∧
    qualifiedReferences qualifier line =
      (((List.range line.length).filter (RemovedAt .kept qualifier line ·)).map fun i =>
        Text.takeWord (line.drop (i + (qualifier.length + 1)))).filter (· ≠ []) := by
  constructor
  · intro quoted
    rw [stripQualifier_eq hq]
    exact removeFrom_eq_filter hq [] line 0 (fun i _ hi => absurd hi (Nat.not_lt_zero i))
      fun j hj => absurd hj (Nat.not_lt_zero j)
  · have hsites := congrArg (List.map Text.takeWord) (filter_sites .kept hq [] line)
    rw [List.map_map, List.map_map] at hsites
    rw [Idl.qualifiedReferences_eq, List.range_eq_range']
    refine congrArg (List.filter (· ≠ [])) (Eq.trans ?_ hsites)
    rw [← List.filterMap_eq_map, List.filterMap_filter]
    rfl

/-- A qualifier that overlaps itself, in a longer path, behind a quote and at the start of one. -/
theorem qualifier_occurrences_overlapping :
    stripQualifier "a.a".toList .removed "a.a.a.T x.a.a.U 'a.a.V' a.a.W".toList = "a.T x.a.a.U 'V' W".toList ∧
      stripQualifier "a.a".toList .kept "a.a.a.T x.a.a.U 'a.a.V' a.a.W".toList = "a.T x.a.a.U 'a.a.V' W".toList ∧
      qualifiedReferences "a.a".toList "a.a.a.T x.a.a.U 'a.a.V' a.a.W".toList = ["a".toList, "W".toList] := by
  have hpath : ∀ c ∈ "a.a".toList, isPathChar c = true := by decide
  obtain ⟨hline, hreferences⟩ := qualifier_occurrences hpath "a.a.a.T x.a.a.U 'a.a.V' a.a.W".toList
  exact ⟨(hline .removed).trans (by decide +kernel), (hline .kept).trans (by decide +kernel),
    hreferences.trans (by decide +kernel)⟩

end ThriftModules.Module
