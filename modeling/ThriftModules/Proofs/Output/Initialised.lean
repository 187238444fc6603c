import ThriftModules.Output.Tree
import ThriftModules.Proofs.Output.Files

/-!
# A fresh output tree

* `IsFreshAt` : the three directories of a tree are there, and empty;
* `wiped` : the file system without what stood at the root;
* `initialise_eq_ok` : the tree is fresh after it was initialised, whatever stood there before, unless its root steps up
  from a directory that is missing;
* `initialise_eq_error` : nor does anything old stand in it where it could not be initialised.
-/

namespace ThriftModules.Output

set_option autoImplicit false

open FileSystem (Named Reaches Keeps Made isBelow find?_put isBelow_cons runOn)
open Chain (Ends)

def dirNames : List OsText := ["java".toList, "js".toList, "ts".toList]

/-- The three directories of the tree stand in the directory at `loc`, and they are empty. -/
structure Tree.IsFreshAt (tree : Tree) (fs : FileSystem) (loc : Location) : Prop where
  named : ∀ name ∈ dirNames, Named fs (Path.join tree.root name) loc name
  directory : ∀ name ∈ dirNames, fs.find? (name :: loc) = some .directory
  empty : ∀ name ∈ dirNames, ∀ x, isBelow (name :: loc) x = true → fs.find? x = none

section
variable {fs fs' : FileSystem} {root : Path} {loc : Location}

theorem makeAll_cons {dir : Path} {rest : List Path} (h : Tree.makeAll (dir :: rest) fs = .ok () fs') :
    ∃ g, FileSystem.makeDirs dir fs = .ok () g ∧ Tree.makeAll rest g = .ok () fs' := by
  obtain ⟨u, g, h₁, h₂⟩ := Chain.run_bind_eq_ok.1 h
  exact ⟨g, orFail_eq_ok.1 h₁, h₂⟩

theorem not_isDirectory_join {name : OsText} (hn : Path.IsName name) (hroot : root ≠ [])
    (h : fs.isDirectory root = false) : fs.isDirectory (Path.join root name) = false := by
  rw [Bool.eq_false_iff] at h ⊢
  intro hd
  obtain ⟨-, hlen, loc, hr⟩ := FileSystem.isDirectory_iff.1 hd
  have hlen' := Nat.lt_of_le_of_lt (Path.size_le_join root hn) hlen
  exact h (FileSystem.isDirectory_iff.2 ⟨hroot, hlen', hr.of_join hn⟩)

/-- A directory made below a path that was no directory stands alone in a new one. -/
theorem makeDirs_join_of_not_isDirectory {name : OsText} (hwf : fs.WellFormed) (hroot : root ≠ [])
    (hup : FileSystem.StepsUpFromDirectories fs root) (hd : fs.isDirectory root = false) (hn : Path.IsName name)
    (h : FileSystem.makeDirs (Path.join root name) fs = .ok () fs') :
    ∃ loc, fs'.WellFormed ∧ Reaches fs' root loc ∧ Named fs' (Path.join root name) loc name ∧
      ∀ x, isBelow loc x = true → fs'.find? x = if x = name :: loc then some .directory else none := by
  obtain ⟨loc, last, hmade⟩ :=
    FileSystem.makeDirs_eq_ok hwf (Path.join_ne_nil hn) (hup.join hn) (not_isDirectory_join hn hroot hd) h
  have hfind := hmade.find?
  have hsuffix := fun x => hmade.suffix (x := x)
  have hwf' := hmade.wellFormed
  obtain ⟨g, hkeep, -, hnamed, hfree, rfl, hnew, -⟩ := hmade.last
  have hput := Keeps.put hfree .directory
  -- the last name of the path is `name`, so the directory is the one of the root
  obtain ⟨pre, hpre, hl⟩ := hnamed.names
  rw [Path.names_join hn] at hpre
  obtain ⟨rfl, hlast⟩ := List.append_inj' hpre rfl
  obtain rfl := (List.cons.inj hlast).1
  rw [FileSystem.startOf_join _ hn] at hl
  have hreach : Reaches g root loc := ⟨hl, hnamed.directory⟩
  have hfresh : fs.find? loc = none := by
    rcases hnew with rfl | hnone
    · rw [Bool.eq_false_iff] at hd
      have hlen := Nat.lt_of_le_of_lt (Path.size_le_join root hn) hnamed.short
      exact absurd (FileSystem.isDirectory_iff.2 ⟨hroot, hlen, loc, hreach⟩) hd
    · exact hnone
  refine ⟨loc, hwf', hreach.keepsDirs hput.dirs, hnamed.keepsDirs hput.dirs, fun x hx => ?_⟩
  split
  · next e => rw [e, hfind]
  · next hne =>
    by_contra hf
    have hold : fs.find? x = none := hwf.find?_below (by rw [hfresh]; simp) hx
    rcases List.suffix_cons_iff.1 (hsuffix x hold hf) with e | hs
    · exact hne e
    · have := hs.length_le
      have := FileSystem.length_lt_of_isBelow hx
      omega

/-- The file system without what stood at the root of an output tree. -/
def wiped (root : Path) (fs : FileSystem) : FileSystem :=
  if fs.pathExists root then (runOn fs (FileSystem.removeTree root)).2 else fs

/-- The tree is the one at the root, whatever happens to the file system. -/
theorem initialise_root (root : Path) (fs : FileSystem) :
    Ends (fun tree _ => tree = ⟨root⟩) (fun _ _ => True) (Tree.initialise root fs) := by
  have hany : ∀ {α : Type} (r : EStateM.Result OutputError FileSystem α), Ends (fun _ _ => True) (fun _ _ => True) r := by
    intro α r
    cases r <;> trivial
  have hmake : ∀ g, Ends (fun tree _ => tree = ⟨root⟩) (fun _ _ => True)
      ((do Tree.makeAll (Tree.mk root).dirs; pure (Tree.mk root) : FileSystem.DiskM OutputError Tree) g) :=
    fun g => (hany _).bind fun _ _ _ _ => rfl
  unfold Tree.initialise
  refine Ends.bind_of_ok (Chain.run_get fs) ?_
  split
  · exact (hany _).bind fun _ g _ _ => hmake g
  · exact hmake fs

/-- What stood at the root is gone when the three directories are made. -/
theorem makeAll_of_initialise {tree : Tree} (hwf : fs.WellFormed) (h : Tree.initialise root fs = .ok tree fs') :
    tree = ⟨root⟩ ∧ (wiped root fs).WellFormed ∧ (wiped root fs).isDirectory root = false ∧
      Tree.makeAll tree.dirs (wiped root fs) = .ok () fs' := by
  have hmake : ∀ g, (do Tree.makeAll (Tree.mk root).dirs; pure (Tree.mk root) : FileSystem.DiskM OutputError Tree) g =
      .ok tree fs' → tree = ⟨root⟩ ∧ Tree.makeAll tree.dirs g = .ok () fs' := by
    intro g hg
    obtain ⟨u, g', h₁, h₂⟩ := Chain.run_bind_eq_ok.1 hg
    cases h₂
    exact ⟨rfl, h₁⟩
  unfold Tree.initialise at h
  obtain ⟨there, fs₀, h₀, hrest⟩ := Chain.run_bind_eq_ok.1 h
  cases h₀
  simp only at hrest
  by_cases he : fs.pathExists root = true
  · rw [if_pos he] at hrest
    obtain ⟨u, g, hwipe, hrest⟩ := Chain.run_bind_eq_ok.1 hrest
    have hremove := orFail_eq_ok.1 hwipe
    obtain ⟨hwf', hd⟩ := FileSystem.removeTree_eq_ok hwf hremove
    obtain ⟨rfl, hall⟩ := hmake g hrest
    have hg : wiped root fs = g := by
      unfold wiped runOn
      rw [if_pos he, hremove]
    rw [hg]
    exact ⟨rfl, hwf', hd, hall⟩
  · rw [if_neg he] at hrest
    obtain ⟨rfl, hall⟩ := hmake fs hrest
    have hg : wiped root fs = fs := if_neg he
    rw [hg]
    refine ⟨rfl, hwf, ?_, hall⟩
    rw [Bool.eq_false_iff]
    intro hd
    obtain ⟨hne, hlen, loc, hr⟩ := FileSystem.isDirectory_iff.1 hd
    apply he
    unfold FileSystem.pathExists
    rw [hr.stat hne hlen]

theorem initialise_eq_ok {tree : Tree} (hwf : fs.WellFormed) (hroot : root ≠ [])
    (hup : FileSystem.StepsUpFromDirectories (wiped root fs) root) (h : Tree.initialise root fs = .ok tree fs') :
    tree = ⟨root⟩ ∧ fs'.WellFormed ∧ ∃ loc, tree.IsFreshAt fs' loc := by
  obtain ⟨rfl, hwfg, hd, hall⟩ := makeAll_of_initialise hwf h
  have hjava : Path.IsName "java".toList := by decide
  have hjs : Path.IsName "js".toList := by decide
  have hts : Path.IsName "ts".toList := by decide
  obtain ⟨fs₁, h₁, hall⟩ := makeAll_cons hall
  obtain ⟨fs₂, h₂, hall⟩ := makeAll_cons hall
  obtain ⟨fs₃, h₃, hall⟩ := makeAll_cons hall
  cases hall
  obtain ⟨loc, hwf₁, hr₁, hn₁, hfind₁⟩ := makeDirs_join_of_not_isDirectory hwfg hroot hup hd hjava h₁
  have hfree₁ : fs₁.find? ("js".toList :: loc) = none := by
    rw [hfind₁ _ (isBelow_cons _ loc), if_neg (by simp)]
  obtain ⟨hn₂, rfl⟩ := FileSystem.makeDirs_join_eq_ok hr₁ hjs hfree₁ h₂
  have hkeep₂ := Keeps.put hfree₁ .directory
  have hfree₂ : (fs₁.put ("js".toList :: loc) .directory).find? ("ts".toList :: loc) = none := by
    rw [find?_put (List.cons_ne_nil _ _), if_neg (by simp), hfind₁ _ (isBelow_cons _ loc), if_neg (by simp)]
  obtain ⟨hn₃, rfl⟩ := FileSystem.makeDirs_join_eq_ok (hr₁.keepsDirs hkeep₂.dirs) hts hfree₂ h₃
  have hkeep₃ := Keeps.put hfree₂ .directory
  refine ⟨rfl, ?_, loc, ?_, ?_, ?_⟩
  · refine (hwf₁.put hjs hn₂.lookedUp.short hr₁.directory (.inr rfl)).put hts hn₃.lookedUp.short ?_ (.inr rfl)
    exact hkeep₂.find? _ _ hr₁.directory
  · intro name hname
    simp only [dirNames, List.mem_cons, List.not_mem_nil, or_false] at hname
    rcases hname with rfl | rfl | rfl
    · exact (hn₁.keepsDirs hkeep₂.dirs).keepsDirs hkeep₃.dirs
    · exact (hn₂.keepsDirs hkeep₂.dirs).keepsDirs hkeep₃.dirs
    · exact hn₃.keepsDirs hkeep₃.dirs
  · intro name hname
    rw [find?_put (List.cons_ne_nil _ _), find?_put (List.cons_ne_nil _ _), hfind₁ _ (isBelow_cons name loc)]
    simp only [dirNames, List.mem_cons, List.not_mem_nil, or_false] at hname
    rcases hname with rfl | rfl | rfl <;> simp
  · intro name _ x hx
    have hlen := FileSystem.length_lt_of_isBelow hx
    have hne : ∀ n : Text, x ≠ n :: loc := by
      rintro n rfl
      simp at hlen
    rw [find?_put (List.cons_ne_nil _ _), if_neg (hne _), find?_put (List.cons_ne_nil _ _), if_neg (hne _),
      hfind₁ x (FileSystem.isBelow_trans (isBelow_cons name loc) hx), if_neg (hne _)]

/-! ## Trees that could not be initialised -/

/-- All directories below a path that stand in its directory are empty. -/
def HasEmptyDirs (fs : FileSystem) (root : Path) : Prop :=
  ∀ name loc, Path.IsName name → fs.stat (Path.join root name) = .ok (loc, .directory) →
    ∀ x, isBelow loc x = true → fs.find? x = none

theorem isDirectory_of_stat_join {name : OsText} (hn : Path.IsName name) (hroot : root ≠ [])
    (hs : fs.stat (Path.join root name) = .ok (loc, .directory)) : fs.isDirectory root = true := by
  obtain ⟨-, hlen, hr⟩ := FileSystem.stat_eq_directory_iff.1 hs
  exact FileSystem.isDirectory_iff.2 ⟨hroot, Nat.lt_of_le_of_lt (Path.size_le_join root hn) hlen, hr.of_join hn⟩

theorem hasEmptyDirs_of_reaches (hwf : fs.WellFormed) (hr : Reaches fs root loc)
    (h : ∀ x, isBelow loc x = true → fs.find? x = none ∨ fs.find? x = some .directory ∧ ∃ n, x = n :: loc) :
    HasEmptyDirs fs root := by
  intro name dir hn hs x hx
  have hdir := (FileSystem.stat_eq_directory_iff.1 hs).2.2
  have hentry : fs.find? (name :: loc) = some .directory := by
    have hl := hdir.leads
    rw [FileSystem.startOf_join _ hn, Path.names_join hn] at hl
    rcases h _ (isBelow_cons name loc) with hnone | ⟨hd, -⟩
    · exact absurd hnone (hl.exists_last hr.leads hn.notDot hn.notDotDot)
    · exact hd
  obtain rfl : dir = name :: loc :=
    hdir.unique (hr.join hn (hwf.short name loc (by simp [hentry])) hentry)
  rcases h x (FileSystem.isBelow_trans (isBelow_cons name loc) hx) with hnone | ⟨-, n, rfl⟩
  · exact hnone
  · have := FileSystem.length_lt_of_isBelow hx
    simp at this

theorem makeAll_cons_eq_error {dir : Path} {rest : List Path} {e : OutputError}
    (h : Tree.makeAll (dir :: rest) fs = .error e fs') :
    (∃ cause, FileSystem.makeDirs dir fs = .error cause fs') ∨
      ∃ g, FileSystem.makeDirs dir fs = .ok () g ∧ Tree.makeAll rest g = .error e fs' := by
  rcases Chain.run_bind_eq_error.1 h with h | ⟨u, g, h₁, h₂⟩
  · left
    unfold FileSystem.orFail at h
    split at h
    · cases h
    · next cause g hm =>
      cases h
      exact ⟨cause, hm⟩
  · exact .inr ⟨g, orFail_eq_ok.1 h₁, h₂⟩

theorem hasEmptyDirs_of_removeTree {e : OsError} (hroot : root ≠ [])
    (h : FileSystem.removeTree root fs = .error e fs') : HasEmptyDirs fs' root := by
  intro name loc hn hs
  have hexists : fs'.pathExists (Path.join root name) = true := by
    unfold FileSystem.pathExists
    rw [hs]
  obtain ⟨top, htop, hentry⟩ := FileSystem.exists_of_pathExists_join hroot hn hexists
  exact absurd (FileSystem.removeTree_eq_error h htop (isBelow_cons name top)) hentry

/-- Of a tree that was not there, only empty directories are made where not all of them can be. -/
theorem hasEmptyDirs_of_makeAll {e : OutputError} (hwf : fs.WellFormed) (hroot : root ≠ [])
    (hup : FileSystem.StepsUpFromDirectories fs root) (hd : fs.isDirectory root = false)
    (h : Tree.makeAll (Tree.mk root).dirs fs = .error e fs') : HasEmptyDirs fs' root := by
  have hjava : Path.IsName "java".toList := by decide
  have hjs : Path.IsName "js".toList := by decide
  have hts : Path.IsName "ts".toList := by decide
  rcases makeAll_cons_eq_error h with ⟨cause, hm⟩ | ⟨fs₁, h₁, h⟩
  · intro name loc hn hs
    rcases FileSystem.makeDirsUp_eq_error hwf (hup.join hjava) hm with
      rfl | ⟨q, dir, last, ⟨⟨k, rest, hk⟩, habs⟩, hmade⟩
    · rw [isDirectory_of_stat_join hn hroot hs] at hd
      cases hd
    · -- the names of the path above are among those of the root
      have hnames : Path.names root = Path.names q ++ (k :: rest).dropLast := by
        rw [← List.dropLast_append_of_ne_nil (List.cons_ne_nil k rest), ← hk]
        show _ = (Path.names (Path.join root "java".toList)).dropLast
        rw [Path.names_join hjava, List.dropLast_concat]
      obtain ⟨k', rest', hk'⟩ : ∃ k' rest', (k :: rest).dropLast ++ [name] = k' :: rest' :=
        List.exists_cons_of_ne_nil (by simp)
      have hbelow : Path.names (Path.join root name) = Path.names q ++ k' :: rest' := by
        rw [Path.names_join hn, hnames, List.append_assoc, hk']
      have habs' : Path.isAbsolute q = Path.isAbsolute (Path.join root name) := by
        rw [habs, Path.isAbsolute_join hn]
        exact Path.isAbsolute_join hjava
      exact absurd (FileSystem.stat_eq_directory_iff.1 hs).2.2 (hmade.not_reaches hbelow habs' (hup.join hn))
  obtain ⟨loc, hwf₁, hr₁, -, hfind₁⟩ := makeDirs_join_of_not_isDirectory hwf hroot hup hd hjava h₁
  have hfree₁ : fs₁.find? ("js".toList :: loc) = none := by
    rw [hfind₁ _ (isBelow_cons _ loc), if_neg (by simp)]
  have hjava₁ : ∀ x, isBelow loc x = true →
      fs₁.find? x = none ∨ fs₁.find? x = some .directory ∧ ∃ n, x = n :: loc := by
    intro x hx
    rw [hfind₁ x hx]
    split
    · next e => exact .inr ⟨rfl, _, e⟩
    · exact .inl rfl
  rcases makeAll_cons_eq_error h with ⟨cause, hm⟩ | ⟨fs₂, h₂, h⟩
  · rw [FileSystem.makeDirs_join_eq_error hr₁ hjs hfree₁ hm]
    exact hasEmptyDirs_of_reaches hwf₁ hr₁ hjava₁
  obtain ⟨hn₂, rfl⟩ := FileSystem.makeDirs_join_eq_ok hr₁ hjs hfree₁ h₂
  have hr₂ := hr₁.keepsDirs (Keeps.put hfree₁ .directory).dirs
  have hwf₂ := hwf₁.put hjs hn₂.lookedUp.short hr₁.directory (.inr rfl)
  have hfree₂ : (fs₁.put ("js".toList :: loc) .directory).find? ("ts".toList :: loc) = none := by
    rw [find?_put (List.cons_ne_nil _ _), if_neg (by simp), hfind₁ _ (isBelow_cons _ loc), if_neg (by simp)]
  rcases makeAll_cons_eq_error h with ⟨cause, hm⟩ | ⟨fs₃, -, h⟩
  · rw [FileSystem.makeDirs_join_eq_error hr₂ hts hfree₂ hm]
    refine hasEmptyDirs_of_reaches hwf₂ hr₂ fun x hx => ?_
    rw [find?_put (List.cons_ne_nil _ _)]
    split
    · next e => exact .inr ⟨rfl, _, e⟩
    · exact hjava₁ x hx
  · cases h

/-- Where a tree could not be initialised, no old file stands in it. -/
theorem initialise_eq_error {e : OutputError} (hwf : fs.WellFormed) (hroot : root ≠ [])
    (hup : FileSystem.StepsUpFromDirectories (wiped root fs) root) (h : Tree.initialise root fs = .error e fs') :
    HasEmptyDirs fs' root := by
  have hmake : ∀ g, (do Tree.makeAll (Tree.mk root).dirs; pure (Tree.mk root) : FileSystem.DiskM OutputError Tree) g =
      .error e fs' → Tree.makeAll (Tree.mk root).dirs g = .error e fs' := by
    intro g hg
    rcases Chain.run_bind_eq_error.1 hg with hg | ⟨u, g', -, h₂⟩
    · exact hg
    · cases h₂
  unfold Tree.initialise at h
  obtain h₀ | ⟨there, fs₀, h₀, hrest⟩ := Chain.run_bind_eq_error.1 h
  · cases h₀
  cases h₀
  simp only at hrest
  unfold wiped at hup
  by_cases he : fs.pathExists root = true
  · rw [if_pos he] at hrest hup
    rcases Chain.run_bind_eq_error.1 hrest with hwipe | ⟨u, g, hwipe, hrest⟩
    · unfold FileSystem.orFail at hwipe
      split at hwipe
      · cases hwipe
      · next cause g hm =>
        cases hwipe
        exact hasEmptyDirs_of_removeTree hroot hm
    · have hremove := orFail_eq_ok.1 hwipe
      obtain ⟨hwf', hd⟩ := FileSystem.removeTree_eq_ok hwf hremove
      unfold runOn at hup
      rw [hremove] at hup
      exact hasEmptyDirs_of_makeAll hwf' hroot hup hd (hmake g hrest)
  · rw [if_neg he] at hrest hup
    refine hasEmptyDirs_of_makeAll hwf hroot hup ?_ (hmake fs hrest)
    rw [Bool.eq_false_iff]
    intro hd
    obtain ⟨hne, hlen, loc, hr⟩ := FileSystem.isDirectory_iff.1 hd
    apply he
    unfold FileSystem.pathExists
    rw [hr.stat hne hlen]

end

end ThriftModules.Output
