import Mathlib.Data.List.Perm.Subperm
import ThriftModules.Proofs.Alike
import ThriftModules.Proofs.FileSystem.Listing
import ThriftModules.Proofs.FileSystem.Making
import ThriftModules.Proofs.FileSystem.Visited

/-!
# File systems that hold the same

* `Same` : two file systems that hold the same entries, in whatever order they list them;
* `Same.stat`, `Same.slot`, `Same.lstat`, `Same.walk` : every look at them gives the same;
* `Same.put`, `Same.erase`, `Same.eraseBelow` : they stay the same under the same changes;
* `Extensional` : a computation that cannot tell them apart, such as every file operation.
-/

namespace ThriftModules.FileSystem

set_option autoImplicit false

open Chain (Alike Respects respects_pure respects_throw respects_modify respects_get_bind)

/-- The file systems hold the same entries. -/
structure Same (fs fs' : FileSystem) : Prop where
  find? : ∀ x, fs'.find? x = fs.find? x
  workDir : fs'.workDir = fs.workDir
  nameLimit : fs'.nameLimit = fs.nameLimit

section
variable {fs fs' fs'' : FileSystem}

theorem Same.refl (fs : FileSystem) : Same fs fs := ⟨fun _ => rfl, rfl, rfl⟩

theorem Same.symm (h : Same fs fs') : Same fs' fs := ⟨fun x => (h.find? x).symm, h.workDir.symm, h.nameLimit.symm⟩

theorem Same.trans (h : Same fs fs') (h' : Same fs' fs'') : Same fs fs'' :=
  ⟨fun x => (h'.find? x).trans (h.find? x), h'.workDir.trans h.workDir, h'.nameLimit.trans h.nameLimit⟩

/-! ## Looks -/

theorem Same.follow (h : Same fs fs') (links : Nat) (dir : Location) (names : List OsText) :
    follow fs' links dir names = follow fs links dir names :=
  follow_congr h.nameLimit fun x _ => h.find? x

theorem Same.stat (h : Same fs fs') (p : Path) : fs'.stat p = fs.stat p :=
  stat_congr h.nameLimit h.workDir fun x _ => h.find? x

theorem Same.isDirectory (h : Same fs fs') (p : Path) : fs'.isDirectory p = fs.isDirectory p := by
  unfold FileSystem.isDirectory
  rw [h.stat]

theorem Same.pathExists (h : Same fs fs') (p : Path) : fs'.pathExists p = fs.pathExists p := by
  unfold FileSystem.pathExists
  rw [h.stat]

theorem Same.readText (h : Same fs fs') (p : Path) : fs'.readText p = fs.readText p := readText_congr (h.stat p)

theorem Same.locate (h : Same fs fs') (dir : Location) (p : Path) : fs'.locate dir p = fs.locate dir p := by
  unfold FileSystem.locate
  rw [h.follow]

theorem Same.slotIn (h : Same fs fs') (dir : Location) (p : Path) : fs'.slotIn dir p = fs.slotIn dir p := by
  unfold FileSystem.slotIn
  simp only [h.follow, h.find?, h.nameLimit]

theorem Same.slot (h : Same fs fs') (p : Path) : fs'.slot p = fs.slot p := by
  unfold FileSystem.slot
  rw [h.workDir, h.slotIn]

theorem Same.lstat (h : Same fs fs') (p : Path) : fs'.lstat p = fs.lstat p := by
  unfold FileSystem.lstat
  simp only [h.slot, h.find?, h.stat]

theorem Same.writeTarget (h : Same fs fs') (links : Nat) (dir : Location) (p : Path) :
    fs'.writeTarget links dir p = fs.writeTarget links dir p := by
  induction links generalizing dir p with
  | zero =>
    unfold FileSystem.writeTarget
    simp only [h.slotIn, h.find?]
  | succ links ih =>
    unfold FileSystem.writeTarget
    simp only [h.slotIn, h.find?, ih]

theorem Same.children (h : Same fs fs') (dir : Location) : fs'.children dir = fs.children dir :=
  children_congr fun _ => h.find? _

theorem Same.below (h : Same fs fs') (dir : Location) (path : Path) : fs'.below dir path = fs.below dir path :=
  below_congr fun x _ => h.find? x

theorem Same.walk (h : Same fs fs') (root : Path) : fs'.walk root = fs.walk root := by
  unfold FileSystem.walk
  simp only [h.lstat, h.stat, h.below]

/-! ## Fresh names -/

theorem freshDigits_inj {k n m : Nat} (hn : n < 62 ^ k) (hm : m < 62 ^ k) (h : freshDigits k n = freshDigits k m) :
    n = m := by
  induction k generalizing n m with
  | zero =>
    rw [pow_zero] at hn hm
    omega
  | succ k ih =>
    obtain ⟨hchar, hrest⟩ := List.cons.inj h
    have hdigit : n % 62 = m % 62 := by
      have hinj : ∀ a < 62, ∀ b < 62, freshChars.getD a '0' = freshChars.getD b '0' → a = b := by decide +kernel
      exact hinj _ (Nat.mod_lt _ (by decide)) _ (Nat.mod_lt _ (by decide)) hchar
    have hfront : n / 62 = m / 62 :=
      ih (Nat.div_lt_of_lt_mul (pow_succ' 62 k ▸ hn)) (Nat.div_lt_of_lt_mul (pow_succ' 62 k ▸ hm)) hrest
    omega

theorem candidate_inj {n m : Nat} (hn : n < candidateCount) (hm : m < candidateCount) (h : candidate n = candidate m) :
    n = m := freshDigits_inj hn hm (List.append_cancel_left h)

/-- Of more candidates than there are entries one is free. -/
theorem exists_candidate (dir : Location) (h : fs.entries.length + 1 ≤ candidateCount) :
    ∃ n < fs.entries.length + 1, (fs.find? (candidate n :: dir)).isNone := by
  by_contra hall
  push Not at hall
  have hnodup : ((List.range (fs.entries.length + 1)).map fun n => candidate n :: dir).Nodup := by
    refine List.Nodup.map_on (fun n hn m hm e => ?_) List.nodup_range
    have hlt : ∀ k ∈ List.range (fs.entries.length + 1), k < candidateCount := fun k hk =>
      Nat.lt_of_lt_of_le (List.mem_range.1 hk) h
    exact candidate_inj (hlt n hn) (hlt m hm) (List.cons.inj e).1
  have hsub : ((List.range (fs.entries.length + 1)).map fun n => candidate n :: dir) ⊆ fs.entries.map Prod.fst := by
    intro loc hloc
    obtain ⟨n, hn, rfl⟩ := List.mem_map.1 hloc
    have hsome : (fs.entries.lookup (candidate n :: dir)).isSome = true := by
      rw [Option.isSome_iff_ne_none]
      exact fun hnone => hall n (List.mem_range.1 hn) (Option.isNone_iff_eq_none.2 hnone)
    obtain ⟨e, he, hkey⟩ := List.lookup_isSome_iff.1 hsome
    exact List.mem_map.2 ⟨e, he, (beq_iff_eq.1 hkey).symm⟩
  have hle := (hnodup.subperm hsub).length_le
  simp only [List.length_map, List.length_range] at hle
  omega

/-- A fresh name is the first free one of all candidates, although not all of them need be tried. -/
theorem freshName?_eq (fs : FileSystem) (dir : Location) : fs.freshName? dir =
    ((List.range candidateCount).map candidate).find? fun name => (fs.find? (name :: dir)).isNone := by
  unfold freshName?
  rcases Nat.le_total (fs.entries.length + 1) candidateCount with hle | hle
  · obtain ⟨n, hn, hfree⟩ := exists_candidate dir hle
    obtain ⟨more, hmore⟩ := Nat.exists_eq_add_of_le hle
    rw [Nat.min_eq_left hle, hmore]
    generalize fs.entries.length + 1 = few at hn
    rw [List.range_add, List.map_append, List.find?_append, Option.or_of_isSome]
    rw [List.find?_isSome]
    exact ⟨candidate n, List.mem_map.2 ⟨n, List.mem_range.2 hn, rfl⟩, hfree⟩
  · rw [Nat.min_eq_right hle]

theorem Same.freshName? (h : Same fs fs') (dir : Location) : fs'.freshName? dir = fs.freshName? dir := by
  rw [freshName?_eq, freshName?_eq]
  simp only [h.find?]

theorem Same.tempPlace (h : Same fs fs') (dir : Path) : fs'.tempPlace dir = fs.tempPlace dir := by
  unfold FileSystem.tempPlace tempDirectory absolute
  simp only [h.workDir, h.locate, h.find?, h.freshName?, h.nameLimit]

/-! ## Changes -/

theorem find?_put_root (fs : FileSystem) (entry : Entry) (x : Location) : (fs.put [] entry).find? x = fs.find? x := by
  cases x with
  | nil => rfl
  | cons n d =>
    show List.lookup (n :: d) (([], entry) :: fs.entries.filter fun e => e.1 ≠ []) = fs.entries.lookup (n :: d)
    rw [List.lookup_cons, beq_eq_false_iff_ne.2 (List.cons_ne_nil n d), lookup_filter (· ≠ [])]
    simp

theorem find?_erase_root (fs : FileSystem) (x : Location) : (fs.erase []).find? x = fs.find? x := by
  cases x with
  | nil => rfl
  | cons n d =>
    show List.lookup (n :: d) (fs.entries.filter fun e => e.1 ≠ []) = fs.entries.lookup (n :: d)
    rw [lookup_filter (· ≠ [])]
    simp

theorem Same.put (h : Same fs fs') (loc : Location) (entry : Entry) : Same (fs.put loc entry) (fs'.put loc entry) := by
  refine ⟨fun x => ?_, h.workDir, h.nameLimit⟩
  by_cases hl : loc = []
  · rw [hl, find?_put_root, find?_put_root, h.find?]
  · rw [find?_put hl, find?_put hl, h.find?]

theorem Same.erase (h : Same fs fs') (loc : Location) : Same (fs.erase loc) (fs'.erase loc) := by
  refine ⟨fun x => ?_, h.workDir, h.nameLimit⟩
  by_cases hl : loc = []
  · rw [hl, find?_erase_root, find?_erase_root, h.find?]
  · rw [find?_erase hl, find?_erase hl, h.find?]

theorem Same.eraseBelow (h : Same fs fs') (dir : Location) : Same (fs.eraseBelow dir) (fs'.eraseBelow dir) :=
  ⟨fun x => by rw [find?_eraseBelow, find?_eraseBelow, h.find?], h.workDir, h.nameLimit⟩

end

/-! ## Computations that cannot tell them apart -/

/-- The computation goes by what stands where, and leaves the same behind. -/
def Extensional {ε α : Type} (x : DiskM ε α) : Prop := Respects Same x

section
variable {ε ε' α : Type} {fs fs' : FileSystem}

theorem extensional_inspect {look : FileSystem → Except ε α} (hlook : ∀ {fs fs'}, Same fs fs' → look fs' = look fs) :
    Extensional (inspect look) := by
  intro fs fs' h
  unfold inspect
  rw [hlook h]
  cases look fs with
  | ok a => exact .ok h
  | error e => exact .error h

theorem Extensional.orFail {x : DiskM ε α} (hx : Extensional x) (rename : ε → ε') : Extensional (orFail rename x) := by
  intro fs fs' h
  unfold FileSystem.orFail
  rcases (hx h).elim with ⟨a, g, g', hg, hg', hs⟩ | ⟨e, g, g', hg, hg', hs⟩ <;> rw [hg, hg']
  · exact .ok hs
  · exact .error hs

theorem Extensional.runOn {x : DiskM ε α} (hx : Extensional x) (h : Same fs fs') :
    ∃ r g g', runOn fs x = (r, g) ∧ runOn fs' x = (r, g') ∧ Same g g' := by
  unfold FileSystem.runOn
  rcases (hx h).elim with ⟨a, g, g', hg, hg', hs⟩ | ⟨e, g, g', hg, hg', hs⟩ <;> rw [hg, hg'] <;>
    exact ⟨_, g, g', rfl, rfl, hs⟩

end

section
variable (p : Path)

theorem extensional_makeEntry (entry : Entry) : Extensional (makeEntry p entry) := by
  unfold makeEntry
  refine (extensional_inspect fun h => h.slot p).bind fun s => ?_
  cases s with
  | name dir name slash =>
    refine respects_get_bind fun fs fs' h => ?_
    rw [h.find?]
    split_ifs
    · exact .error h
    · exact .error h
    · exact .ok (h.put _ _)
  | _ => exact respects_throw _

theorem extensional_makeDir : Extensional (makeDir p) := extensional_makeEntry p .directory

theorem extensional_makeDirsUp (paths : List Path) : Extensional (makeDirsUp paths) := by
  induction paths with
  | nil => exact respects_pure ()
  | cons p above ih =>
    unfold makeDirsUp
    split_ifs
    · exact respects_pure ()
    refine respects_get_bind fun fs fs' h => ?_
    obtain ⟨r, g, g', hg, hg', hs⟩ := (extensional_makeDir p).runOn h
    rw [hg, hg']
    have hcheck : ∀ x : Disk Unit, Extensional x →
        Extensional (do if !FileSystem.isDirectory (← get) p then x) := fun x hx =>
      respects_get_bind fun fs fs' h => by
        rw [h.isDirectory]
        split_ifs
        · exact hx h
        · exact .ok h
    cases r with
    | ok u => exact .ok hs
    | error e =>
      cases e with
      | notFound => exact ih.bind (fun _ => hcheck _ (extensional_makeDir p)) h
      | _ => exact hcheck _ (respects_throw _) h

theorem extensional_makeDirs : Extensional (makeDirs p) := extensional_makeDirsUp _

theorem extensional_removeFile : Extensional (removeFile p) := by
  unfold removeFile
  refine (extensional_inspect fun h => h.slot p).bind fun s => ?_
  cases s with
  | name dir name slash =>
    refine respects_get_bind fun fs fs' h => ?_
    rw [h.find?]
    cases fs.find? (name :: dir) with
    | none => exact .error h
    | some entry =>
      cases entry with
      | directory => exact .error h
      | _ =>
        cases slash
        · exact .ok (h.erase _)
        · exact .error h
  | _ => exact respects_throw _

theorem extensional_removeDir : Extensional (removeDir p) := by
  unfold removeDir
  refine (extensional_inspect fun h => h.slot p).bind fun s => ?_
  cases s with
  | name dir name slash =>
    refine respects_get_bind fun fs fs' h => ?_
    rw [h.find?, h.children]
    cases fs.find? (name :: dir) with
    | none => exact .error h
    | some entry =>
      cases entry with
      | directory =>
        dsimp only
        split_ifs
        · exact .ok (h.erase _)
        · exact .error h
      | _ => exact .error h
  | _ => exact respects_throw _

theorem extensional_removeTree : Extensional (removeTree p) := by
  unfold removeTree
  refine (extensional_inspect fun h => h.lstat p).bind fun found => ?_
  obtain ⟨loc, entry⟩ := found
  cases entry with
  | link target => exact extensional_removeFile p
  | directory =>
    refine (respects_modify fun fs fs' h => h.eraseBelow loc).bind fun _ => respects_get_bind fun fs fs' h => ?_
    obtain ⟨r, g, g', hg, hg', hs⟩ := (extensional_removeDir p).runOn h
    rw [hg, hg']
    cases r with
    | ok u => exact .ok hs
    | error e =>
      cases e with
      | notFound => exact .ok h
      | _ => exact .error h
  | file content executable => exact respects_throw _

theorem extensional_makeTemp (content : Content) : Extensional (makeTemp p content) := by
  unfold makeTemp
  refine (extensional_inspect fun h => h.tempPlace p).bind fun temp => ?_
  exact (respects_modify fun fs fs' h => h.put temp _).bind fun _ => respects_pure _

theorem extensional_renameFile (source : Location) : Extensional (renameFile source p) := by
  unfold renameFile
  refine (extensional_inspect fun h => h.slot p).bind fun s => ?_
  cases s with
  | name dir name slash =>
    refine respects_get_bind fun fs fs' h => ?_
    rw [h.find?, h.find?]
    cases slash with
    | true => exact .error h
    | false =>
      by_cases hd : fs.find? (name :: dir) = some .directory
      · rw [hd]
        exact .error h
      · cases hs : fs.find? source with
        | none => simpa [hd] using .error h
        | some entry => simpa [hd] using .ok ((h.erase _).put _ _)
  | _ => exact respects_throw _

theorem extensional_writeFile (content : Content) : Extensional (writeFile p content) := by
  unfold writeFile
  refine (extensional_inspect fun h => ?_).bind fun loc => respects_modify fun fs fs' h => ?_
  · rw [h.workDir, h.writeTarget]
  · rw [h.find?]
    exact h.put _ _

end

end ThriftModules.FileSystem
