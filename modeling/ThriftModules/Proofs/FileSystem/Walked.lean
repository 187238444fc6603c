import ThriftModules.Proofs.FileSystem.Order

/-!
# What a walk from a directory lists

* `Precedes` : the order of a walk, name by name by the bytes of the names (`precedes_iff`); a directory precedes all
  below it (`precedes_append`);
* `Enumerates` : paths that lead to all wanted entries of a tree, in this order, and so each once (`Enumerates.nodup`);
* `walkedDirs_of_lstat` : a walk from a directory lists it and all directories below it;
* `walkedDirs_of_link` : a walk from a link to a directory lists the directories below it alone.
-/

namespace ThriftModules.FileSystem

set_option autoImplicit false

/-! ## The order of a walk -/

/-- Names compared one after the other by their bytes; fewer names come before more. -/
def Precedes (a b : List OsText) : Prop := a < b

theorem precedes_iff {a b : List OsText} : Precedes a b ↔ a < b := Iff.rfl

theorem Precedes.irrefl (a : List OsText) : ¬Precedes a a := List.lt_irrefl _

theorem precedes_append (names : List OsText) {below : List OsText} (h : below ≠ []) : Precedes names (names ++ below) := by
  obtain ⟨n, below, rfl⟩ := List.exists_cons_of_ne_nil h
  rw [precedes_iff]
  conv_lhs => rw [← List.append_nil names]
  exact List.append_left_lt (List.nil_lt_cons n below)

/-- In a list in walk order, what stands before an element is what precedes it. -/
theorem mem_before_iff {before after : List (List OsText)} {names other : List OsText}
    (h : (before ++ names :: after).Pairwise Precedes) :
    other ∈ before ↔ other ∈ before ++ names :: after ∧ Precedes other names := by
  obtain ⟨-, hafter, hbefore⟩ := List.pairwise_append.1 h
  constructor
  · exact fun ho => ⟨List.mem_append_left _ ho, hbefore other ho names List.mem_cons_self⟩
  · rintro ⟨ho, hlt⟩
    rcases List.mem_append.1 ho with ho | ho
    · exact ho
    · rcases List.mem_cons.1 ho with rfl | ho
      · exact absurd hlt (Precedes.irrefl _)
      · exact absurd hlt (List.lt_asymm ((List.pairwise_cons.1 hafter).1 other ho))

theorem head?_eq_nil {l : List (List OsText)} (h : l.Pairwise Precedes) (hnil : [] ∈ l) : l.head? = some [] := by
  obtain ⟨before, after, rfl⟩ := List.append_of_mem hnil
  cases before with
  | nil => rfl
  | cons names before =>
    have hlt := ((mem_before_iff h).1 (List.mem_cons_self (a := names))).2
    exact absurd (precedes_iff.1 hlt) (List.not_lt_nil names)

theorem pair_sublist {l : List (List OsText)} {names other : List OsText} (h : l.Pairwise Precedes) (hn : names ∈ l)
    (ho : other ∈ l) (hlt : Precedes names other) : [names, other].Sublist l := by
  obtain ⟨before, after, rfl⟩ := List.append_of_mem ho
  have hb : names ∈ before := (mem_before_iff h).2 ⟨hn, hlt⟩
  exact (List.singleton_sublist.2 hb).append (List.singleton_sublist.2 List.mem_cons_self)

/-- The paths lead from `root`, which stands for the directory `top`, to the entries in and below it that are wanted:
to all of them, in walk order. Links on the way are not followed. -/
def Enumerates (fs : FileSystem) (root : Path) (top : Location) (wanted : List OsText → Entry → Prop) (paths : List Path) :
    Prop :=
  ∃ ways : List (List OsText), paths = ways.map (·.foldl Path.join root) ∧ ways.Pairwise Precedes ∧
    ∀ names, names ∈ ways ↔ ∃ entry, fs.find? (names.reverse ++ top) = some entry ∧ wanted names entry

section
variable {fs : FileSystem} {root : Path} {top place : Location} {names : List OsText}

/-! ## Names and paths -/

theorem WellFormed.isName_of_mem (hwf : fs.WellFormed) (h : fs.find? (names.reverse ++ top) ≠ none) {name : OsText}
    (hn : name ∈ names) : Path.IsName name := by
  induction names generalizing top with
  | nil => cases hn
  | cons first rest ih =>
    rw [place_cons] at h
    rcases List.mem_cons.1 hn with rfl | hn
    · refine hwf.name name top ?_
      by_cases hrest : rest = []
      · rwa [hrest] at h
      · rw [hwf.above (isBelow_iff.2 ⟨rest.reverse, by simpa using hrest, rfl⟩) h]
        simp
    · exact ih h hn

theorem segments_foldl_join (h : ∀ name ∈ names, Path.IsName name) :
    Path.segments (names.foldl Path.join root) = Path.segments root ++ names := by
  induction names generalizing root with
  | nil => simp
  | cons name names ih =>
    rw [List.foldl_cons, ih fun n hn => h n (List.mem_cons_of_mem _ hn), Path.segments_join (h name List.mem_cons_self),
      List.append_assoc, List.singleton_append]

theorem foldl_join_inj (hwf : fs.WellFormed) {names names' : List OsText} (h : fs.find? (names.reverse ++ top) ≠ none)
    (h' : fs.find? (names'.reverse ++ top) ≠ none) :
    names.foldl Path.join root = names'.foldl Path.join root ↔ names = names' := by
  refine ⟨fun he => ?_, congrArg _⟩
  have hs := congrArg Path.segments he
  rw [segments_foldl_join fun _ => hwf.isName_of_mem h, segments_foldl_join fun _ => hwf.isName_of_mem h'] at hs
  exact List.append_cancel_left hs

theorem foldl_join_mem_iff (hwf : fs.WellFormed) {ways : List (List OsText)}
    (hways : ∀ way ∈ ways, fs.find? (way.reverse ++ top) ≠ none) (h : fs.find? (names.reverse ++ top) ≠ none) :
    names.foldl Path.join root ∈ ways.map (·.foldl Path.join root) ↔ names ∈ ways := by
  refine ⟨fun hm => ?_, fun hm => List.mem_map.2 ⟨names, hm, rfl⟩⟩
  obtain ⟨way, hway, he⟩ := List.mem_map.1 hm
  rwa [← (foldl_join_inj hwf (hways way hway) h).1 he]

theorem Enumerates.nodup {wanted : List OsText → Entry → Prop} {paths : List Path} (hwf : fs.WellFormed)
    (h : Enumerates fs root top wanted paths) : paths.Nodup := by
  obtain ⟨ways, rfl, hsorted, hmem⟩ := h
  have hthere : ∀ names ∈ ways, fs.find? (names.reverse ++ top) ≠ none := by
    intro names hn
    obtain ⟨entry, he, -⟩ := (hmem names).1 hn
    simp [he]
  rw [List.Nodup, List.pairwise_map]
  refine hsorted.imp_of_mem fun {a b} ha hb hlt he => ?_
  rw [foldl_join_inj hwf (hthere a ha) (hthere b hb)] at he
  rw [he] at hlt
  exact Precedes.irrefl b hlt

/-! ## Directories -/

def dirsBelow (fs : FileSystem) (top : Location) : List (List OsText) :=
  ((entriesBelow fs fs.maxDepth top).filter (·.2 = .directory)).map (·.1)

theorem mem_dirsBelow (hwf : fs.WellFormed) :
    names ∈ dirsBelow fs top ↔ names ≠ [] ∧ fs.find? (names.reverse ++ top) = some .directory := by
  rw [← mem_entriesBelow_maxDepth hwf, dirsBelow]
  simp

theorem dirsBelow_sorted (fs : FileSystem) (top : Location) : (dirsBelow fs top).Pairwise Precedes := by
  rw [dirsBelow, List.pairwise_map]
  exact ((entriesBelow_sorted fs _ top).filter _).imp precedes_iff.2

theorem filterMap_dir?_below (hwf : fs.WellFormed) :
    (fs.below top root).filterMap WalkItem.dir? = (dirsBelow fs top).map (·.foldl Path.join root) := by
  rw [below_eq hwf, List.filterMap_map, dirsBelow, List.map_map, ← List.filterMap_eq_map, List.filterMap_filter]
  refine List.filterMap_congr fun e _ => ?_
  obtain ⟨names, entry⟩ := e
  cases entry <;> rfl

/-- A directory and all directories below it, which a walk from it lists. -/
theorem walkedDirs_of_lstat (hwf : fs.WellFormed) (h : fs.lstat root = .ok (top, .directory)) :
    fs.walkedDirs root = .ok (([] :: dirsBelow fs top).map (·.foldl Path.join root)) := by
  unfold walkedDirs walk
  rw [h, List.map_cons, ← filterMap_dir?_below hwf]
  rfl

/-- The directories below a link's target, which a walk from the link lists without the link itself. -/
theorem walkedDirs_of_link (hwf : fs.WellFormed) {target : Path} (hl : fs.lstat root = .ok (place, .link target))
    (h : fs.stat root = .ok (top, .directory)) :
    fs.walkedDirs root = .ok ((dirsBelow fs top).map (·.foldl Path.join root)) := by
  unfold walkedDirs walk
  simp only [hl, h]
  rw [← filterMap_dir?_below hwf]
  rfl

end

end ThriftModules.FileSystem
