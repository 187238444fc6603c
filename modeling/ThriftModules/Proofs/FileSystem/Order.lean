import ThriftModules.Proofs.FileSystem.Listing

/-!
# Directory trees in walk order

* `entriesBelow` : what lies below a directory, by the names that lead there;
* `mem_entriesBelow`, `entriesBelow_sorted` : all of it, each directory before what it holds, siblings by name;
* `below_eq` : a walk meets these entries in this order, each by its names joined to the start;
* `Reaches.named_foldl_join` : names joined to a path that stands for a directory name what stands below it.
-/

namespace ThriftModules.FileSystem

set_option autoImplicit false

/-- An entry, if it is there, and what lies below it, by the names that lead there from the directory above. -/
def headed (name : OsText) (entry : Option Entry) (inside : List (List OsText × Entry)) : List (List OsText × Entry) :=
  match entry with
  | none => []
  | some top => ([name], top) :: inside.map fun e => (name :: e.1, e.2)

/-- What lies below the directory `dir`, down to `depth` levels, by the names that lead there, the outermost first. -/
def entriesBelow (fs : FileSystem) : Nat → Location → List (List OsText × Entry)
  | 0, _ => []
  | depth + 1, dir => (fs.children dir).flatMap fun name =>
    headed name (fs.find? (name :: dir)) (entriesBelow fs depth (name :: dir))

section
variable {fs : FileSystem} {depth : Nat} {dir : Location} {path : Path} {names : List OsText} {entry : Entry}

/-! ## Places by names -/

theorem place_cons (first : OsText) (rest : List OsText) (dir : Location) :
    (first :: rest).reverse ++ dir = rest.reverse ++ first :: dir := by
  rw [List.reverse_cons, List.append_assoc, List.singleton_append]

theorem place_concat (above : List OsText) (name : OsText) (dir : Location) :
    (above ++ [name]).reverse ++ dir = name :: (above.reverse ++ dir) := by
  rw [List.reverse_append, List.reverse_singleton, List.singleton_append, List.cons_append]

/-! ## What is listed -/

theorem mem_headed {name : OsText} {top : Option Entry} {inside : List (List OsText × Entry)} :
    (names, entry) ∈ headed name top inside ↔
      top ≠ none ∧ ∃ rest, names = name :: rest ∧ (rest = [] ∧ top = some entry ∨ (rest, entry) ∈ inside) := by
  cases top with
  | none => simp [headed]
  | some top =>
    simp only [headed, List.mem_cons, List.mem_map, Prod.mk.injEq, Prod.exists]
    constructor
    · rintro (⟨rfl, rfl⟩ | ⟨rest, e, hmem, rfl, rfl⟩)
      · exact ⟨by simp, [], rfl, .inl ⟨rfl, rfl⟩⟩
      · exact ⟨by simp, rest, rfl, .inr hmem⟩
    · rintro ⟨-, rest, rfl, ⟨rfl, htop⟩ | hmem⟩
      · exact .inl ⟨rfl, (Option.some.inj htop).symm⟩
      · exact .inr ⟨rest, entry, hmem, rfl, rfl⟩

theorem ne_nil_of_mem_entriesBelow (h : (names, entry) ∈ entriesBelow fs depth dir) : names ≠ [] := by
  cases depth with
  | zero => cases h
  | succ depth =>
    obtain ⟨name, -, h⟩ := List.mem_flatMap.1 h
    obtain ⟨-, rest, rfl, -⟩ := mem_headed.1 h
    exact List.cons_ne_nil _ _

/-- Everything below the directory is listed, and nothing else is. -/
theorem mem_entriesBelow (hwf : fs.WellFormed) (hn : HasLevels fs dir depth) :
    (names, entry) ∈ entriesBelow fs depth dir ↔ names ≠ [] ∧ fs.find? (names.reverse ++ dir) = some entry := by
  induction depth generalizing dir names with
  | zero =>
    constructor
    · intro h
      cases h
    · rintro ⟨hne, he⟩
      have hb : isBelow dir (names.reverse ++ dir) = true := isBelow_iff.2 ⟨_, by simpa using hne, rfl⟩
      have := hn _ hb (by simp [he])
      have := length_lt_of_isBelow hb
      omega
  | succ depth ih =>
    rw [entriesBelow, List.mem_flatMap]
    constructor
    · rintro ⟨name, -, h⟩
      obtain ⟨-, rest, rfl, ⟨rfl, he⟩ | hmem⟩ := mem_headed.1 h
      · exact ⟨List.cons_ne_nil _ _, he⟩
      · rw [place_cons]
        exact ⟨List.cons_ne_nil _ _, ((ih (hn.child name)).1 hmem).2⟩
    · rintro ⟨hne, he⟩
      obtain ⟨name, rest, rfl⟩ := List.exists_cons_of_ne_nil hne
      rw [place_cons] at he
      by_cases hrest : rest = []
      · subst hrest
        have htop : fs.find? (name :: dir) ≠ none := fun e => nomatch he.symm.trans e
        exact ⟨name, mem_children.2 htop, mem_headed.2 ⟨htop, [], rfl, .inl ⟨rfl, he⟩⟩⟩
      · have hb : isBelow (name :: dir) (rest.reverse ++ name :: dir) = true :=
          isBelow_iff.2 ⟨_, by simpa using hrest, rfl⟩
        have htop : fs.find? (name :: dir) ≠ none := by simp [hwf.above hb (by rw [he]; simp)]
        exact ⟨name, mem_children.2 htop, mem_headed.2 ⟨htop, rest, rfl, .inr ((ih (hn.child name)).2 ⟨hrest, he⟩)⟩⟩

theorem mem_entriesBelow_maxDepth (hwf : fs.WellFormed) :
    (names, entry) ∈ entriesBelow fs fs.maxDepth dir ↔
      names ≠ [] ∧ fs.find? (names.reverse ++ dir) = some entry := mem_entriesBelow hwf (hasLevels_maxDepth fs dir)

theorem headed_sorted {name : OsText} {top : Option Entry} {inside : List (List OsText × Entry)}
    (hne : ∀ e ∈ inside, e.1 ≠ []) (h : inside.Pairwise (·.1 < ·.1)) : (headed name top inside).Pairwise (·.1 < ·.1) := by
  cases top with
  | none => exact .nil
  | some top =>
    refine List.pairwise_cons.2 ⟨fun e he => ?_, ?_⟩
    · obtain ⟨e', he', rfl⟩ := List.mem_map.1 he
      obtain ⟨n, rest, hrest⟩ := List.exists_cons_of_ne_nil (hne e' he')
      rw [hrest]
      exact List.cons_lt_cons_iff.2 (.inr ⟨rfl, List.nil_lt_cons n rest⟩)
    · rw [List.pairwise_map]
      exact h.imp fun hlt => List.cons_lt_cons_iff.2 (.inr ⟨rfl, hlt⟩)

/-- Each directory is listed before what it holds, and siblings are listed by name. -/
theorem entriesBelow_sorted (fs : FileSystem) (depth : Nat) (dir : Location) :
    (entriesBelow fs depth dir).Pairwise (·.1 < ·.1) := by
  induction depth generalizing dir with
  | zero => exact .nil
  | succ depth ih =>
    rw [entriesBelow, List.pairwise_flatMap]
    refine ⟨fun name _ => headed_sorted (fun _ => ne_nil_of_mem_entriesBelow) (ih (name :: dir)), ?_⟩
    refine (NameSet.sorted _).imp fun hlt e he e' he' => ?_
    obtain ⟨-, rest, hrest, -⟩ := mem_headed.1 he
    obtain ⟨-, rest', hrest', -⟩ := mem_headed.1 he'
    rw [hrest, hrest']
    exact List.cons_lt_cons_iff.2 (.inl hlt)

/-! ## What a walk meets -/

theorem entriesBelow_eq_nil (hwf : fs.WellFormed) (hd : fs.find? dir ≠ some .directory) :
    entriesBelow fs depth dir = [] := by
  cases depth with
  | zero => rfl
  | succ depth =>
    rw [entriesBelow, children_eq_nil fun name => hwf.find?_below hd (isBelow_cons name dir)]
    rfl

/-- A walk meets the entries in this order, each by its names joined to the path of the start. -/
theorem walkBelow_eq (hwf : fs.WellFormed) (depth : Nat) (dir : Location) (path : Path) :
    walkBelow fs depth dir path = (entriesBelow fs depth dir).map fun e => ⟨e.1.foldl Path.join path, e.2⟩ := by
  induction depth generalizing dir path with
  | zero => rfl
  | succ depth ih =>
    rw [walkBelow, entriesBelow, List.map_flatMap]
    refine List.flatMap_congr fun name _ => ?_
    cases he : fs.find? (name :: dir) with
    | none => rfl
    | some entry =>
      cases entry with
      | directory =>
        simp only [ih, headed, List.map_cons, List.map_map]
        rfl
      | _ =>
        rw [entriesBelow_eq_nil hwf (by simp [he])]
        rfl

theorem below_eq (hwf : fs.WellFormed) (dir : Location) (path : Path) :
    fs.below dir path =
      (entriesBelow fs fs.maxDepth dir).map fun e => ⟨e.1.foldl Path.join path, e.2⟩ := walkBelow_eq hwf _ dir path

/-! ## Names joined to a path -/

/-- Names joined to a path stand for the directory that they lead to. -/
theorem Reaches.foldl_join (h : Reaches fs path dir) (hwf : fs.WellFormed)
    (hd : fs.find? (names.reverse ++ dir) = some .directory) :
    Reaches fs (names.foldl Path.join path) (names.reverse ++ dir) := by
  induction names generalizing path dir with
  | nil => exact h
  | cons name names ih =>
    rw [place_cons] at hd ⊢
    have htop : fs.find? (name :: dir) = some .directory := by
      by_cases hnames : names = []
      · rwa [hnames] at hd
      · exact hwf.above (isBelow_iff.2 ⟨names.reverse, by simpa using hnames, rfl⟩) (by simp [hd])
    have hf : fs.find? (name :: dir) ≠ none := by simp [htop]
    exact ih (h.join (hwf.name name dir hf) (hwf.short name dir hf) htop) hd

theorem fileName_join {base name : OsText} (hn : Path.IsName name) : Path.fileName (Path.join base name) = name := by
  have hall : ∀ c ∈ name.reverse, decide (c ≠ '/') = true := by
    intro c hc
    rw [decide_eq_true_eq]
    rintro rfl
    exact hn.noSlash (List.mem_reverse.1 hc)
  have htail : ∀ b : Text, Path.fileName (b ++ '/' :: name) = name := by
    intro b
    unfold Path.fileName
    rw [List.reverse_append, List.reverse_cons, List.append_assoc, List.takeWhile_append_of_pos hall]
    simp
  rcases Path.join_cases base hn with ⟨-, hj⟩ | ⟨b, -, hj⟩ | ⟨-, hj⟩
  · rw [hj]
    unfold Path.fileName
    rw [List.takeWhile_eq_self_iff.2 hall, List.reverse_reverse]
  · rw [hj, htail]
  · rw [hj, htail]

/-- Names joined to the path of a directory name the entry that they lead to. -/
theorem Reaches.named_foldl_join (h : Reaches fs path dir) (hwf : fs.WellFormed) (hne : names ≠ [])
    (he : fs.find? (names.reverse ++ dir) = some entry)
    (hlen : OsText.size (names.foldl Path.join path) < maxPath) :
    ∃ d n, names.reverse ++ dir = n :: d ∧ Named fs (names.foldl Path.join path) d n ∧
      Path.endsWithSlash (names.foldl Path.join path) = false ∧
      Path.fileName (names.foldl Path.join path) = n := by
  obtain ⟨init, n, rfl⟩ : ∃ init n, names = init ++ [n] := ⟨_, _, (List.dropLast_concat_getLast hne).symm⟩
  rw [place_concat] at he ⊢
  have hf : fs.find? (n :: (init.reverse ++ dir)) ≠ none := by simp [he]
  have hn := hwf.name _ _ hf
  rw [List.foldl_append, List.foldl_cons, List.foldl_nil] at hlen ⊢
  exact ⟨_, n, rfl, (h.foldl_join hwf (hwf.parent _ _ hf)).named hn hlen (hwf.short _ _ hf),
    Path.endsWithSlash_join hn, fileName_join hn⟩

end

end ThriftModules.FileSystem
