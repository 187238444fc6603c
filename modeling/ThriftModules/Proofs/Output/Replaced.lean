import ThriftModules.Proofs.FileSystem.Same
import ThriftModules.Proofs.Output.Initialised

/-!
# An output tree in place of another

* `cleared` : a file system without what stands at a location or below it;
* `Site` : a free place that the root of a tree names, where all above it is there;
* `exists_site` : an initialised tree is planted on such a site;
* `Site.wiped_same` : what stands on a site is wiped, and nothing else;
* `initialise_replaces` : file systems that differ on the site only come to the same where a tree is initialised;
* `initialise_again` : a tree that is put in its own place is the same again.
-/

namespace ThriftModules.FileSystem

set_option autoImplicit false

/-! ## What stands at a location or below it -/

theorem suffix_iff_isBelow {loc x : Location} : loc <:+ x ↔ x = loc ∨ isBelow loc x = true := by
  unfold isBelow
  rw [Bool.and_eq_true, List.isSuffixOf_iff_suffix, decide_eq_true_eq]
  constructor
  · intro h
    by_cases e : x = loc
    · exact .inl e
    · exact .inr ⟨h, Ne.symm e⟩
  · rintro (rfl | h)
    · exact List.suffix_refl x
    · exact h.1

/-- The file system without what stands at a location or below it. -/
def cleared (loc : Location) (fs : FileSystem) : FileSystem := (fs.eraseBelow loc).erase loc

section
variable {fs fs' : FileSystem} {loc : Location}

theorem find?_cleared (hl : loc ≠ []) (x : Location) :
    (cleared loc fs).find? x = if loc <:+ x then none else fs.find? x := by
  unfold cleared
  rw [find?_erase hl, find?_eraseBelow, ← ite_or]
  simp only [suffix_iff_isBelow]

theorem Frame.cleared (h : Frame fs fs' (loc <:+ ·)) (hl : loc ≠ []) : Same (cleared loc fs) (cleared loc fs') := by
  refine ⟨fun x => ?_, h.workDir, h.nameLimit⟩
  rw [find?_cleared hl, find?_cleared hl]
  split_ifs with hx
  · rfl
  · exact h.find? x hx

theorem WellFormed.find?_suffix (h : fs.WellFormed) (hl : fs.find? loc = none) {x : Location} (hx : loc <:+ x) :
    fs.find? x = none := by
  rcases suffix_iff_isBelow.1 hx with rfl | hb
  · exact hl
  · exact h.find?_below (by simp [hl]) hb

theorem WellFormed.find?_above (h : fs.WellFormed) (hl : fs.find? loc = some .directory) {x : Location}
    (hx : x <:+ loc) : fs.find? x = some .directory := by
  rcases suffix_iff_isBelow.1 hx with rfl | hb
  · exact hl
  · exact h.above hb (by simp [hl])

theorem WellFormed.same_cleared (h : fs.WellFormed) (hl : fs.find? loc = none) : Same (cleared loc fs) fs := by
  have hne : loc ≠ [] := by
    rintro rfl
    cases hl
  refine ⟨fun x => ?_, rfl, rfl⟩
  rw [find?_cleared hne]
  split_ifs with hx
  · exact h.find?_suffix hl hx
  · rfl

theorem WellFormed.same_erase (h : fs.WellFormed) (hne : loc ≠ []) (hl : fs.find? loc ≠ some .directory) :
    Same (cleared loc fs) (fs.erase loc) := by
  refine ⟨fun x => ?_, rfl, rfl⟩
  rw [find?_cleared hne, find?_erase hne]
  by_cases hx : loc <:+ x
  · rw [if_pos hx]
    rcases suffix_iff_isBelow.1 hx with rfl | hb
    · exact if_pos rfl
    · rw [h.find?_below hl hb, ite_self]
  · rw [if_neg hx, if_neg]
    rintro rfl
    exact hx (List.suffix_refl x)

theorem StepsUpFromDirectories.keeps {p : Path} (h : StepsUpFromDirectories fs p) (hk : Keeps fs fs') :
    StepsUpFromDirectories fs' p := by
  intro pre post e
  obtain ⟨top, hf, hd⟩ := h pre post e
  refine ⟨top, ?_, hk.find? _ _ hd⟩
  rw [hk.workDir]
  exact ((follow_eq_ok_iff.1 hf).keeps hk).follow_eq

end

end ThriftModules.FileSystem

namespace ThriftModules.Output

set_option autoImplicit false

open FileSystem (Frame IsLookedUp Keeps Leads Made Named Reaches Same StepsUpFromDirectories cleared find?_cleared
  find?_put isBelow isBelow_cons maxLinks maxPath runOn startOf)
open Chain (Alike Respects)

/-! ## Sites -/

/-- A free place that the root of a tree names, where all above it is there. -/
structure Site (g : FileSystem) (root : Path) (dir : Location) (name : OsText) : Prop where
  wellFormed : g.WellFormed
  nonempty : root ≠ []
  short : OsText.size root < maxPath
  stepsUp : StepsUpFromDirectories g root
  names : ∃ pre, Path.names root = pre ++ [name] ∧ Leads g maxLinks (startOf g.workDir root) pre dir
  directory : g.find? dir = some .directory
  lookedUp : IsLookedUp g name
  free : g.find? (name :: dir) = none

def planted (loc : Location) (fs : FileSystem) : FileSystem :=
  dirNames.foldl (fun fs name => fs.put (name :: loc) .directory) (fs.put loc .directory)

section
variable {fs fs' g made W : FileSystem} {root : Path} {dir loc : Location} {name : OsText}

theorem planted_of_same (h : Same fs fs') (loc : Location) : Same (planted loc fs) (planted loc fs') :=
  (((h.put _ _).put _ _).put _ _).put _ _

theorem find?_planted (fs : FileSystem) (hl : loc ≠ []) : (planted loc fs).find? loc = some .directory := by
  show ((((fs.put loc .directory).put _ _).put _ _).put _ _).find? loc = _
  have hne : ∀ name : OsText, loc ≠ name :: loc := fun name e => by simpa using congrArg List.length e
  rw [find?_put (List.cons_ne_nil _ _), if_neg (hne _), find?_put (List.cons_ne_nil _ _), if_neg (hne _),
    find?_put (List.cons_ne_nil _ _), if_neg (hne _), find?_put hl, if_pos rfl]

theorem frame_planted (fs : FileSystem) (hl : loc ≠ []) : Frame fs (planted loc fs) (loc <:+ ·) := by
  have hput : ∀ (fs : FileSystem) {x}, x ≠ [] → loc <:+ x → Frame fs (fs.put x .directory) (loc <:+ ·) :=
    fun fs x hx hsuffix => (Frame.put fs hx .directory).mono fun y hy => hy ▸ hsuffix
  have hname : ∀ (fs : FileSystem) name, Frame fs (fs.put (name :: loc) .directory) (loc <:+ ·) :=
    fun fs name => hput fs (List.cons_ne_nil name loc) (List.suffix_cons name loc)
  exact (((hput fs hl (List.suffix_refl loc)).trans (hname _ _)).trans (hname _ _)).trans (hname _ _)

/-- The root of the tree leads to the site, whatever is added or put there. -/
theorem Site.leads (h : Site g root dir name) (hk : Keeps g fs) : ∃ pre, Path.names root = pre ++ [name] ∧
    Leads fs maxLinks (startOf fs.workDir root) pre dir := by
  obtain ⟨pre, hpre, hl⟩ := h.names
  refine ⟨pre, hpre, ?_⟩
  rw [hk.workDir]
  exact hl.keeps hk

theorem Site.eq_of_named (h : Site g root dir name) (hk : Keeps g fs) {d : Location} {n : Text}
    (hn : Named fs root d n) : n :: d = name :: dir := by
  obtain ⟨pre, hpre, hl⟩ := h.leads hk
  obtain ⟨pre', hpre', hl'⟩ := hn.names
  obtain ⟨rfl, hlast⟩ := List.append_inj' (hpre'.symm.trans hpre) rfl
  rw [hl'.unique hl, (List.cons.inj hlast).1]

theorem Site.unique (h : Site g root dir name) (hk : Keeps g fs) {dir' : Location} {name' : Text}
    (h' : Site fs root dir' name') : name' :: dir' = name :: dir := by
  obtain ⟨pre, hpre, hl⟩ := h.leads hk
  obtain ⟨pre', hpre', hl'⟩ := h'.names
  obtain ⟨rfl, hlast⟩ := List.append_inj' (hpre'.symm.trans hpre) rfl
  rw [hl'.unique hl, (List.cons.inj hlast).1]

/-- The directory that the root reaches stands on the site, unless a link does. -/
theorem Site.eq_of_reaches (h : Site g root dir name) (hk : Keeps g fs) (hr : Reaches fs root loc)
    (hlink : ∀ target, fs.find? (name :: dir) ≠ some (.link target)) : loc = name :: dir := by
  obtain ⟨pre, hpre, hl⟩ := h.leads hk
  have hroot := hr.leads
  rw [hpre] at hroot
  obtain ⟨mid, links, -, h₁, h₂⟩ := hroot.split
  obtain rfl : mid = dir := h₁.unique hl
  cases h₂ with
  | dot => exact absurd rfl h.lookedUp.notDot
  | dotDot => exact absurd rfl h.lookedUp.notDotDot
  | link _ _ he => exact absurd he (hlink _)
  | into _ _ _ _ hrest =>
    cases hrest
    rfl

theorem Site.reaches (h : Site g root dir name) (hk : Keeps g fs)
    (hd : fs.find? (name :: dir) = some .directory) : Reaches fs root (name :: dir) := by
  obtain ⟨pre, hpre, hl⟩ := h.leads hk
  refine ⟨?_, hd⟩
  rw [hpre]
  have hname : IsLookedUp fs name := ⟨h.lookedUp.notDot, h.lookedUp.notDotDot, hk.nameLimit ▸ h.lookedUp.short⟩
  exact hl.append (.into (hk.find? _ _ h.directory) hname hd (by simp) (.here 0 _))

theorem Site.not_pathExists (h : Site g root dir name) (hk : Keeps g fs) (hf : fs.find? (name :: dir) = none) :
    fs.pathExists root = false := by
  rw [Bool.eq_false_iff]
  intro he
  unfold FileSystem.pathExists at he
  split at he
  · next found hstat =>
    unfold FileSystem.stat at hstat
    obtain ⟨loc, hlocate, -⟩ := Chain.bind_eq_ok.1 hstat
    unfold FileSystem.locate at hlocate
    split_ifs at hlocate
    have hroot := (FileSystem.follow_eq_ok_iff.1 hlocate).thin (FileSystem.thin_steps root)
    obtain ⟨pre, hpre, hl⟩ := h.leads hk
    rw [hpre] at hroot
    exact hroot.exists_last hl h.lookedUp.notDot h.lookedUp.notDotDot hf
  · cases he

theorem Site.keeps_planted (h : Site g root dir name) : Keeps g (planted (name :: dir) g) :=
  (Output.frame_planted g (List.cons_ne_nil name dir)).keeps fun _ hx => h.wellFormed.find?_suffix h.free hx

/-- What stands in `g` stands off the site, and so it stays when the site is cleared. -/
theorem Site.keeps_cleared (h : Site g root dir name) (hk : Keeps g fs) : Keeps g (cleared (name :: dir) fs) := by
  refine ⟨fun x entry hx => ?_, hk.workDir, hk.nameLimit⟩
  rw [find?_cleared (List.cons_ne_nil name dir), if_neg, hk.find? x entry hx]
  intro hsuffix
  rw [h.wellFormed.find?_suffix h.free hsuffix] at hx
  cases hx

/-! ## Trees planted -/

/-- Below a path that is no directory, a directory is made on a site. -/
theorem exists_site_of_makeDirs {n : Text} (hwf : W.WellFormed) (hroot : root ≠ [])
    (hup : StepsUpFromDirectories W root) (hd : W.isDirectory root = false) (hn : Path.IsName n)
    (h : FileSystem.makeDirs (Path.join root n) W = .ok () made) :
    ∃ g dir name, Site g root dir name ∧ Keeps W g ∧ (∀ x, W.find? x = none → g.find? x ≠ none → x <:+ dir) ∧
      made = (g.put (name :: dir) .directory).put (n :: name :: dir) .directory := by
  have hupn := hup.join hn
  have hshort : ∀ {fs : FileSystem} {d : Location} {k : Text}, Named fs (Path.join root n) d k →
      OsText.size root < maxPath := fun hnamed =>
    Nat.lt_of_le_of_lt (Path.size_le_join root hn) hnamed.short
  rcases FileSystem.makeDirs_madeLast hwf (Path.join_ne_nil hn) hupn (not_isDirectory_join hn hroot hd) h with
    hm | ⟨q, fs₁, dir, name, hq, hmade, hm⟩
  · obtain ⟨d, k, hnamed, -, -⟩ := FileSystem.makeDir_eq_ok_iff.1 hm
    rw [FileSystem.isDirectory_iff.2 ⟨hroot, hshort hnamed, d, (hnamed.of_join_reaches hn).2⟩] at hd
    cases hd
  · obtain ⟨d, k, hnamed, -, rfl⟩ := FileSystem.makeDir_eq_ok_iff.1 hm
    obtain ⟨rfl, hr⟩ := hnamed.of_join_reaches hn
    -- the parent goes through the names of the root
    have hnames : Path.names q = Path.names root := by
      rw [(Path.names_parent hq).1, Path.names_join hn, List.dropLast_concat]
    have hstart : ∀ d, startOf d q = startOf d root := fun d => by
      rw [FileSystem.startOf_parent d hq, FileSystem.startOf_join d hn]
    have hrq := hmade.reaches.leads
    rw [hnames, hstart] at hrq
    obtain rfl : d = name :: dir := hr.leads.unique hrq
    obtain ⟨g, hkeep, hwfg, hnamedq, hfree, rfl, -, hnew⟩ := hmade.last
    obtain ⟨pre, hpre, hl⟩ := hnamedq.names
    rw [hstart] at hl
    exact ⟨g, dir, name, ⟨hwfg, hroot, hshort hnamed, hup.keeps hkeep, ⟨pre, hnames ▸ hpre, hl⟩,
      hnamedq.directory, hnamedq.lookedUp, hfree⟩, hkeep, hnew, rfl⟩

theorem makeAll_of_reaches {names : List OsText} (hr : Reaches fs root loc) (hnames : ∀ n ∈ names, Path.IsName n)
    (hnodup : names.Nodup) (hfree : ∀ n ∈ names, fs.find? (n :: loc) = none)
    (h : Tree.makeAll (names.map (Path.join root)) fs = .ok () fs') :
    fs' = names.foldl (fun fs n => fs.put (n :: loc) .directory) fs := by
  induction names generalizing fs with
  | nil =>
    cases h
    rfl
  | cons n names ih =>
    obtain ⟨g, hg, h⟩ := makeAll_cons h
    obtain ⟨hn, hrest⟩ := List.forall_mem_cons.1 hnames
    obtain ⟨hnew, hnodup⟩ := List.nodup_cons.1 hnodup
    obtain ⟨hf, hfree⟩ := List.forall_mem_cons.1 hfree
    obtain ⟨-, rfl⟩ := FileSystem.makeDirs_join_eq_ok hr hn hf hg
    refine ih (hr.keepsDirs (Keeps.put hf .directory).dirs) hrest hnodup (fun m hm => ?_) h
    rw [find?_put (List.cons_ne_nil n loc), if_neg, hfree m hm]
    rintro e
    exact hnew ((List.cons.inj e).1 ▸ hm)

theorem exists_site (hwf : W.WellFormed) (hroot : root ≠ []) (hup : StepsUpFromDirectories W root)
    (hd : W.isDirectory root = false) (h : Tree.makeAll (Tree.mk root).dirs W = .ok () made) :
    ∃ g dir name, Site g root dir name ∧ Keeps W g ∧ (∀ x, W.find? x = none → g.find? x ≠ none → x <:+ dir) ∧
      made = planted (name :: dir) g := by
  obtain ⟨fs₁, h₁, h⟩ := makeAll_cons h
  obtain ⟨g, dir, name, hsite, hkeep, hnew, rfl⟩ := exists_site_of_makeDirs hwf hroot hup hd (by decide) h₁
  refine ⟨g, dir, name, hsite, hkeep, hnew, ?_⟩
  have hbelow : ∀ n, g.find? (n :: name :: dir) = none := fun n =>
    hsite.wellFormed.find?_suffix hsite.free (List.suffix_cons n _)
  have hput := Keeps.put hsite.free .directory
  have hjava : (g.put (name :: dir) .directory).find? ("java".toList :: name :: dir) = none := by
    rw [find?_put (List.cons_ne_nil name dir), if_neg (by simp), hbelow]
  have hput₁ := hput.trans (Keeps.put hjava .directory)
  have hroot₁ := hsite.reaches hput₁ (by
    rw [find?_put (List.cons_ne_nil _ _), if_neg (by simp), find?_put (List.cons_ne_nil name dir), if_pos rfl])
  have hfree : ∀ n ∈ ["js".toList, "ts".toList], ((g.put (name :: dir) .directory).put
      ("java".toList :: name :: dir) .directory).find? (n :: name :: dir) = none := by
    intro n hn
    rw [find?_put (List.cons_ne_nil _ _), if_neg, find?_put (List.cons_ne_nil name dir), if_neg (by simp), hbelow]
    rintro e
    rw [(List.cons.inj e).1] at hn
    exact absurd hn (by decide)
  exact (makeAll_of_reaches hroot₁ (by decide) (by decide) hfree h :)

/-! ## Trees wiped -/

/-- A link at the location is what the path names, and not only on the way to what it stands for. -/
def NamesLinkAt (fs : FileSystem) (p : Path) (loc : Location) : Prop :=
  ∀ target, fs.find? loc = some (.link target) → fs.lstat p = .ok (loc, .link target)

theorem namesLinkAt_of_lstat {entry : Entry} (h : fs.lstat root = .ok (loc, entry)) (he : fs.find? loc = some entry) :
    NamesLinkAt fs root loc := by
  intro target ht
  rw [he] at ht
  cases ht
  exact h

theorem removeTree_of_initialise {tree : Tree} (h : Tree.initialise root fs = .ok tree made)
    (he : fs.pathExists root = true) : FileSystem.removeTree root fs = .ok () (wiped root fs) := by
  unfold Tree.initialise at h
  obtain ⟨there, fs₀, h₀, hrest⟩ := Chain.run_bind_eq_ok.1 h
  cases h₀
  simp only at hrest
  rw [if_pos he] at hrest
  obtain ⟨u, g, hwipe, -⟩ := Chain.run_bind_eq_ok.1 hrest
  have hremove := orFail_eq_ok.1 hwipe
  unfold wiped runOn
  rw [if_pos he, hremove]

theorem wiped_keeps {tree : Tree} (h : Tree.initialise root fs = .ok tree made) : Keeps (wiped root fs) fs := by
  by_cases he : fs.pathExists root = true
  · exact FileSystem.removeTree_keeps (removeTree_of_initialise h he)
  · unfold wiped
    rw [if_neg he]
    exact Keeps.refl fs

/-- Where the root is no directory, a tree is made only if the site is free. -/
theorem Site.free_of_makeAll (h : Site g root dir name) (hk : Keeps g fs) (hwf : fs.WellFormed)
    (hd : fs.isDirectory root = false) (hall : Tree.makeAll (Tree.mk root).dirs fs = .ok () made) :
    fs.find? (name :: dir) = none := by
  obtain ⟨g', dir', name', hsite', hkeep', -⟩ := exists_site hwf h.nonempty (h.stepsUp.keeps hk) hd hall
  have hfree := hsite'.free
  rw [h.unique (hk.trans hkeep') hsite'] at hfree
  by_contra hf
  obtain ⟨entry, hentry⟩ := Option.ne_none_iff_exists'.1 hf
  rw [hkeep'.find? _ _ hentry] at hfree
  cases hfree

theorem Site.isDirectory_eraseBelow (h : Site g root dir name) (hk : Keeps g fs)
    (hd : fs.find? (name :: dir) = some .directory) : (fs.eraseBelow (name :: dir)).isDirectory root = true := by
  have hkept : Keeps g (fs.eraseBelow (name :: dir)) :=
    (h.keeps_cleared hk).trans (Keeps.erase _ (List.cons_ne_nil name dir))
  refine FileSystem.isDirectory_iff.2 ⟨h.nonempty, h.short, _, h.reaches hkept ?_⟩
  rw [FileSystem.find?_eraseBelow, FileSystem.isBelow_self, if_neg Bool.false_ne_true, hd]

theorem Site.wiped_same {tree : Tree} (h : Site g root dir name) (hk : Keeps g fs) (hwf : fs.WellFormed)
    (hlink : NamesLinkAt fs root (name :: dir)) (hinit : Tree.initialise root fs = .ok tree made) :
    Same (cleared (name :: dir) fs) (wiped root fs) := by
  have hloc := List.cons_ne_nil name dir
  obtain ⟨rfl, -, hd, hall⟩ := makeAll_of_initialise hwf hinit
  by_cases he : fs.pathExists root = true
  · rcases FileSystem.removeTree_cases (removeTree_of_initialise hinit he) with
      ⟨d, n, entry, hn, hentry, hne, hw⟩ | ⟨top, htop, hw⟩
    · -- a file or a link is gone, and there was nothing below it
      rw [h.eq_of_named hk hn] at hentry hw
      rw [hw]
      exact hwf.same_erase hloc fun e => hne (Option.some.inj (hentry.symm.trans e))
    · have hreach := FileSystem.reaches_of_lstat htop
      obtain rfl : top = name :: dir := h.eq_of_reaches hk hreach fun target ht => by
        rw [hlink target ht] at htop
        cases htop
      rcases hw with ⟨d, n, hn, -, hw⟩ | ⟨hgone, -⟩
      · rw [hw, h.eq_of_named hk (hn.keepsDirs (Keeps.eraseBelow fs (name :: dir)).dirs)]
        exact Same.refl _
      · rw [h.isDirectory_eraseBelow hk hreach.directory] at hgone
        cases hgone
  · -- there was nothing to wipe, so the tree was made with what stood on the site still there
    have hsame : wiped root fs = fs := if_neg he
    rw [hsame] at hd hall ⊢
    exact hwf.same_cleared (h.free_of_makeAll hk hwf hd hall)

/-! ## Trees that cannot be told apart -/

theorem extensional_makeAll (dirs : List Path) : FileSystem.Extensional (Tree.makeAll dirs) := by
  induction dirs with
  | nil => exact Chain.respects_pure ()
  | cons dir rest ih => exact ((FileSystem.extensional_makeDirs dir).orFail _).bind fun _ => ih

theorem extensional_initialise (root : Path) : FileSystem.Extensional (Tree.initialise root) := by
  unfold Tree.initialise
  refine Chain.respects_get_bind fun fs fs' h => ?_
  have hmake : FileSystem.Extensional
      (do Tree.makeAll (Tree.mk root).dirs; pure (Tree.mk root) : FileSystem.DiskM OutputError Tree) :=
    (extensional_makeAll _).bind fun _ => Chain.respects_pure _
  rw [h.pathExists]
  split_ifs
  · exact (((FileSystem.extensional_removeTree root).orFail _).bind fun _ => hmake) h
  · exact hmake h

theorem initialise_of_makeAll (hp : fs.pathExists root = false)
    (h : Tree.makeAll (Tree.mk root).dirs fs = .ok () made) : Tree.initialise root fs = .ok ⟨root⟩ made := by
  unfold Tree.initialise
  refine Chain.run_bind_eq_ok.2 ⟨fs, fs, rfl, ?_⟩
  simp only [hp, Bool.false_eq_true, if_false]
  exact Chain.run_bind_eq_ok.2 ⟨(), made, h, rfl⟩

/-- A tree that takes the place of what stands on the site is the one that is put on the free site. -/
theorem Site.initialise_cleared {tree : Tree} (h : Site g root dir name) (hwf : fs.WellFormed)
    (hk : fs.find? (name :: dir) ≠ none → Keeps g fs) (hlink : NamesLinkAt fs root (name :: dir))
    (hinit : Tree.initialise root fs = .ok tree made) :
    ∃ made', Tree.initialise root (cleared (name :: dir) fs) = .ok tree made' ∧ Same made made' := by
  by_cases hf : fs.find? (name :: dir) = none
  · exact (extensional_initialise root (hwf.same_cleared hf).symm).exists_ok hinit
  · have hkeep := hk hf
    obtain ⟨rfl, -, -, hall⟩ := makeAll_of_initialise hwf hinit
    obtain ⟨made', hall', hsame⟩ :=
      (extensional_makeAll _ (h.wiped_same hkeep hwf hlink hinit).symm).exists_ok hall
    refine ⟨made', initialise_of_makeAll (h.not_pathExists (h.keeps_cleared hkeep) ?_) hall', hsame⟩
    rw [find?_cleared (List.cons_ne_nil name dir), if_pos (List.suffix_refl _)]

/-- What is new in `g` stands above the site, so that it is in any file system that holds something on the site. -/
theorem Site.keeps_of_frame (h : Site g root dir name) (hW : Keeps W fs) (hframe : Frame fs fs' (name :: dir <:+ ·))
    (hwf' : fs'.WellFormed) (hnew : ∀ x, W.find? x = none → g.find? x ≠ none → x <:+ dir)
    (hgW : Keeps W g) (hf : fs'.find? (name :: dir) ≠ none) : Keeps g fs' := by
  refine ⟨fun x entry hx => ?_, ?_, ?_⟩
  · cases hxW : W.find? x with
    | none =>
      have hsuffix := hnew x hxW (by simp [hx])
      rw [h.wellFormed.find?_above h.directory hsuffix] at hx
      rw [hwf'.find?_above (hwf'.parent name dir hf) hsuffix, ← hx]
    | some e =>
      rw [hgW.find? x e hxW] at hx
      rw [hframe.find? x, hW.find? x e hxW, hx]
      intro hsuffix
      have hnone := h.wellFormed.find?_suffix h.free hsuffix
      rw [hgW.find? x e hxW] at hnone
      cases hnone
  · rw [hframe.workDir, hW.workDir, ← hgW.workDir]
  · rw [hframe.nameLimit, hW.nameLimit, ← hgW.nameLimit]

/-- An initialised tree stands on a site, planted there in what was left when its root was wiped. -/
theorem exists_site_of_initialise {tree : Tree} (hwf : fs.WellFormed) (hroot : root ≠ [])
    (hup : StepsUpFromDirectories (wiped root fs) root) (hinit : Tree.initialise root fs = .ok tree made)
    (hloc : made.stat root = .ok (loc, .directory)) :
    tree = ⟨root⟩ ∧ ∃ g dir name, loc = name :: dir ∧ Site g root dir name ∧ Keeps (wiped root fs) g ∧
      (∀ x, (wiped root fs).find? x = none → g.find? x ≠ none → x <:+ dir) ∧ made = planted loc g := by
  obtain ⟨rfl, hwfW, hd, hall⟩ := makeAll_of_initialise hwf hinit
  obtain ⟨g, dir, name, hsite, hgW, hnew, rfl⟩ := exists_site hwfW hroot hup hd hall
  have hreach := (FileSystem.stat_eq_directory_iff.1 hloc).2.2
  obtain rfl : loc = name :: dir := hsite.eq_of_reaches hsite.keeps_planted hreach fun target ht => by
    rw [find?_planted g (List.cons_ne_nil name dir)] at ht
    cases ht
  exact ⟨rfl, g, dir, name, rfl, hsite, hgW, hnew, rfl⟩

/-- File systems that differ on the site only come to the same where a tree is put there. -/
theorem initialise_replaces {tree tree' : Tree} {made' : FileSystem} (hwf : fs.WellFormed) (hwf' : fs'.WellFormed)
    (hroot : root ≠ []) (hup : StepsUpFromDirectories (wiped root fs) root)
    (hinit : Tree.initialise root fs = .ok tree made) (hinit' : Tree.initialise root fs' = .ok tree' made')
    (hloc : made.stat root = .ok (loc, .directory)) (hframe : Frame fs fs' (loc <:+ ·))
    (hlink : NamesLinkAt fs root loc) (hlink' : NamesLinkAt fs' root loc) : tree' = tree ∧ Same made made' := by
  obtain ⟨rfl, g, dir, name, rfl, hsite, hgW, hnew, rfl⟩ := exists_site_of_initialise hwf hroot hup hinit hloc
  have hW := wiped_keeps hinit
  have hkeep := hsite.keeps_of_frame hW (Frame.refl fs _) hwf hnew hgW
  have hkeep' := hsite.keeps_of_frame hW hframe hwf' hnew hgW
  -- both come to the tree that is put where the site was cleared
  obtain ⟨m, hm, hsame⟩ := hsite.initialise_cleared hwf hkeep hlink hinit
  obtain ⟨m', hm', hsame'⟩ := hsite.initialise_cleared hwf' hkeep' hlink' hinit'
  have hcleared := hframe.cleared (List.cons_ne_nil name dir)
  obtain ⟨m'', hm'', hsame''⟩ := (extensional_initialise root hcleared).exists_ok hm
  rw [hm''] at hm'
  cases hm'
  exact ⟨rfl, hsame.trans (hsame''.trans hsame'.symm)⟩

/-- A tree planted on a site, whatever directories above it are made first, is planted in what is there already. -/
theorem Site.same_planted (h : Site g root dir name) (hd : g.isDirectory root = false)
    (hall : Tree.makeAll (Tree.mk root).dirs g = .ok () made) : Same (planted (name :: dir) g) made := by
  obtain ⟨g', dir', name', hsite', hkeep, hnew, rfl⟩ := exists_site h.wellFormed h.nonempty h.stepsUp hd hall
  have hloc := h.unique hkeep hsite'
  rw [hloc]
  apply planted_of_same
  refine ⟨fun x => ?_, hkeep.workDir, hkeep.nameLimit⟩
  cases hx : g.find? x with
  | some entry => exact hkeep.find? x entry hx
  | none =>
    by_contra hf
    have hsuffix := hnew x hx hf
    rw [(List.cons.inj hloc).2] at hsuffix
    rw [h.wellFormed.find?_above h.directory hsuffix] at hx
    cases hx

/-- A tree put in its own place, whatever has come there since, is the same again. -/
theorem initialise_again {tree tree' : Tree} {made' : FileSystem} (hwf : fs.WellFormed) (hwf' : fs'.WellFormed)
    (hroot : root ≠ []) (hup : StepsUpFromDirectories (wiped root fs) root)
    (hinit : Tree.initialise root fs = .ok tree made) (hinit' : Tree.initialise root fs' = .ok tree' made')
    (hloc : made.stat root = .ok (loc, .directory)) (hframe : Frame made fs' (loc <:+ ·))
    (hlink' : NamesLinkAt fs' root loc) : tree' = tree ∧ Same made made' := by
  obtain ⟨rfl, g, dir, name, rfl, hsite, -, -, rfl⟩ := exists_site_of_initialise hwf hroot hup hinit hloc
  have hne := List.cons_ne_nil name dir
  have hkeep : Keeps g fs' :=
    hsite.keeps_planted.frame hframe fun x hx => hsite.wellFormed.find?_suffix hsite.free hx
  -- wiping gives the site back as it was
  have hback : Same (wiped root fs') g :=
    (hsite.wiped_same hkeep hwf' hlink' hinit').symm.trans
      (((frame_planted g hne).trans hframe).cleared hne |>.symm.trans (hsite.wellFormed.same_cleared hsite.free))
  obtain ⟨rfl, -, hd, hall⟩ := makeAll_of_initialise hwf' hinit'
  obtain ⟨m, hm, hsame⟩ := (extensional_makeAll _ hback).exists_ok hall
  rw [← hback.isDirectory] at hd
  exact ⟨rfl, (hsite.same_planted hd hm).trans hsame.symm⟩

end

end ThriftModules.Output
