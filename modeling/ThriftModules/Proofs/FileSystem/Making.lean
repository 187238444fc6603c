import ThriftModules.Proofs.FileSystem.Places

/-!
# Directories made

* `makeDir_eq_ok_iff` : a new directory is put at the free place that its path names;
* `makeDirsUp_cons` : one path made a directory, with those above it (`makeDirsUp_cons_eq_ok` where that succeeds);
* `StepsUpFromDirectories` : a path in which no `..` follows a name that is missing;
* `Made`, `makeDirs_eq_ok` : what `makeDirs` leaves behind where such a path was no directory, its own made last
  (`MadeLast`); where it fails, at most a directory above was made (`makeDirsUp_eq_error`), from which no path leads on
  (`Made.not_reaches`);
* `makeDirs_join` : a directory made below one that is there.
-/

namespace ThriftModules.FileSystem

set_option autoImplicit false

section
variable {fs fs' : FileSystem} {p base : Path} {loc dir : Location} {name : OsText}

/-! ## One directory -/

theorem inspect_eq_ok {ε α : Type} {look : FileSystem → Except ε α} {a : α} :
    inspect look fs = .ok a fs' ↔ look fs = .ok a ∧ fs' = fs := by
  unfold inspect
  cases look fs with
  | ok b =>
    constructor
    · intro h
      cases h
      exact ⟨rfl, rfl⟩
    · rintro ⟨h, rfl⟩
      cases h
      rfl
  | error e =>
    constructor
    · intro h
      cases h
    · rintro ⟨h, -⟩
      cases h

theorem inspect_eq_error {ε α : Type} {look : FileSystem → Except ε α} {e : ε} :
    inspect look fs = .error e fs' ↔ look fs = .error e ∧ fs' = fs := by
  unfold inspect
  cases look fs with
  | ok b =>
    constructor
    · intro h
      cases h
    · rintro ⟨h, -⟩
      cases h
  | error e' =>
    constructor
    · intro h
      cases h
      exact ⟨rfl, rfl⟩
    · rintro ⟨h, rfl⟩
      cases h
      rfl

theorem eq_ok_of_runOn {ε α : Type} {x : DiskM ε α} {a : α} (h : (runOn fs x).1 = .ok a) :
    x fs = .ok a (runOn fs x).2 := by
  unfold runOn at h ⊢
  cases hx : x fs with
  | ok b g =>
    rw [hx] at h
    cases h
    rfl
  | error e g =>
    rw [hx] at h
    cases h

theorem runOn_of_eq_ok {ε α : Type} {x : DiskM ε α} {a : α} (h : x fs = .ok a fs') : runOn fs x = (.ok a, fs') := by
  unfold runOn
  rw [h]

theorem makeDir_of_slot_error {e : OsError} (h : fs.slot p = .error e) : makeDir p fs = .error e fs := by
  unfold makeDir makeEntry
  simp [bind, EStateM.bind, inspect, h]

theorem makeDir_of_named (h : Named fs p dir name) :
    makeDir p fs =
      if (fs.find? (name :: dir)).isSome then .error .exists fs else .ok () (fs.put (name :: dir) .directory) := by
  unfold makeDir makeEntry
  simp only [bind, EStateM.bind, inspect, h.slot, Chain.run_get]
  split
  · rfl
  · simp only [ne_eq, not_true_eq_false, and_false, if_false]
    rfl

theorem makeDir_eq_ok_iff :
    makeDir p fs = .ok () fs' ↔
      ∃ dir name, Named fs p dir name ∧ fs.find? (name :: dir) = none ∧ fs' = fs.put (name :: dir) .directory := by
  constructor
  · intro h
    cases hs : fs.slot p with
    | error e =>
      rw [makeDir_of_slot_error hs] at h
      cases h
    | ok s =>
      cases s with
      | name dir name slash =>
        obtain ⟨hn, -⟩ := slot_eq_name_iff.1 hs
        rw [makeDir_of_named hn] at h
        split at h
        · cases h
        · next hf =>
          cases h
          exact ⟨dir, name, hn, by simpa using hf, rfl⟩
      | _ =>
        unfold makeDir makeEntry at h
        simp only [bind, EStateM.bind, inspect, hs] at h
        cases h
  · rintro ⟨dir, name, hn, hf, rfl⟩
    rw [makeDir_of_named hn, hf]
    rfl

theorem makeDir_eq_error {e : OsError} (h : makeDir p fs = .error e fs') : fs' = fs := by
  cases hs : fs.slot p with
  | error e' =>
    rw [makeDir_of_slot_error hs] at h
    cases h
    rfl
  | ok s =>
    cases s with
    | name dir name slash =>
      rw [makeDir_of_named (slot_eq_name_iff.1 hs).1] at h
      split at h <;> cases h
      rfl
    | _ =>
      unfold makeDir makeEntry at h
      simp only [bind, EStateM.bind, inspect, hs] at h
      cases h
      rfl

/-! ## Directories above -/

theorem makeDirsUp_cons (p : Path) (above : List Path) (fs : FileSystem) :
    makeDirsUp (p :: above) fs =
      if p = [] then .ok () fs
      else match makeDir p fs with
        | .ok () fs' => .ok () fs'
        | .error .notFound _ =>
          match makeDirsUp above fs with
          | .ok () fs' => if fs'.isDirectory p then .ok () fs' else makeDir p fs'
          | .error e fs' => .error e fs'
        | .error e _ => if fs.isDirectory p then .ok () fs else .error e fs := by
  rw [makeDirsUp]
  by_cases hp : p = []
  · rw [if_pos hp, if_pos hp]
    rfl
  rw [if_neg hp, if_neg hp]
  simp only [bind, EStateM.bind, Chain.run_get, runOn]
  cases hm : makeDir p fs with
  | ok a fs' => rfl
  | error e fs' =>
    cases e with
    | notFound =>
      cases ha : makeDirsUp above fs with
      | ok a fs' => cases hd : fs'.isDirectory p <;> simp [EStateM.bind, Chain.run_get, ha, hd]; rfl
      | error e fs' => simp [EStateM.bind, ha]
    | _ => cases hd : fs.isDirectory p <;> simp [EStateM.bind, Chain.run_get, hd] <;> rfl

/-- The first of the directories is there, or it is made at once or after those above it. -/
theorem makeDirsUp_cons_eq_ok {above : List Path} (h : makeDirsUp (p :: above) fs = .ok () fs') :
    fs' = fs ∧ (p = [] ∨ fs.isDirectory p = true) ∨ makeDir p fs = .ok () fs' ∨
      (∃ g, makeDir p fs = .error .notFound g) ∧ ∃ fs₁, makeDirsUp above fs = .ok () fs₁ ∧
        (fs' = fs₁ ∧ fs₁.isDirectory p = true ∨ fs₁.isDirectory p = false ∧ makeDir p fs₁ = .ok () fs') := by
  rw [makeDirsUp_cons] at h
  split at h
  · next hp =>
    cases h
    exact .inl ⟨rfl, .inl hp⟩
  split at h
  · next hm =>
    cases h
    exact .inr (.inl hm)
  · next g hm =>
    split at h
    · next fs₁ ha =>
      refine .inr (.inr ⟨⟨g, hm⟩, fs₁, ha, ?_⟩)
      split at h
      · next hd =>
        cases h
        exact .inl ⟨rfl, hd⟩
      · next hd => exact .inr ⟨Bool.eq_false_iff.2 hd, h⟩
    · cases h
  · split at h
    · next hd =>
      cases h
      exact .inl ⟨rfl, .inr hd⟩
    · cases h

theorem ancestorsUpTo_succ (n : Nat) (p : Path) :
    Path.ancestorsUpTo (n + 1) p = p :: ((Path.parent? p).map (Path.ancestorsUpTo n)).getD [] := rfl

/-- Every step up in the path is taken from a directory that is there. -/
def StepsUpFromDirectories (fs : FileSystem) (p : Path) : Prop :=
  ∀ pre post, Path.names p = pre ++ ['.', '.'] :: post →
    ∃ loc, follow fs maxLinks (startOf fs.workDir p) pre = .ok loc ∧ fs.find? loc = some .directory

theorem stepsUp_of_notMem (h : ['.', '.'] ∉ Path.names p) : StepsUpFromDirectories fs p := by
  intro pre post e
  rw [e] at h
  simp at h

theorem StepsUpFromDirectories.join (h : StepsUpFromDirectories fs base) (hn : Path.IsName name) :
    StepsUpFromDirectories fs (Path.join base name) := by
  intro pre post e
  rw [Path.names_join hn] at e
  rw [startOf_join _ hn]
  rcases List.eq_nil_or_concat post with rfl | ⟨init, last, rfl⟩
  · exact absurd (List.cons.inj (List.append_inj_right' e rfl)).1 hn.notDotDot
  · have happ : Path.names base ++ [name] = (pre ++ ['.', '.'] :: init) ++ [last] := by
      rw [e]
      simp
    exact h pre init (List.append_inj_left' happ rfl)

theorem StepsUpFromDirectories.parent {q : Path} (h : StepsUpFromDirectories fs p) (hq : Path.parent? p = some q) :
    StepsUpFromDirectories fs q := by
  intro pre post e
  rw [startOf_parent _ hq]
  have hnames := (Path.names_parent hq).1
  have hne : Path.names p ≠ [] := by
    intro h
    rw [h, e] at hnames
    simp at hnames
  apply h pre (post ++ [(Path.names p).getLast hne])
  rw [← List.cons_append, ← List.append_assoc, ← e, hnames, List.dropLast_concat_getLast]

/-- What the making of a path's directories comes to where the path was no directory: the place that the path names is
filled last, in a directory that is new unless nothing else was made. -/
structure Made (fs : FileSystem) (p : Path) (fs' : FileSystem) (dir : Location) (name : OsText) : Prop where
  last : ∃ g, Keeps fs g ∧ g.WellFormed ∧ Named g p dir name ∧ g.find? (name :: dir) = none ∧
    fs' = g.put (name :: dir) .directory ∧ (g = fs ∨ fs.find? dir = none) ∧
    ∀ x, fs.find? x = none → g.find? x ≠ none → x <:+ dir

theorem Made.keeps (h : Made fs p fs' dir name) : Keeps fs fs' := by
  obtain ⟨g, hk, -, -, hf, rfl, -⟩ := h.last
  exact hk.trans (Keeps.put hf .directory)

theorem Made.wellFormed (h : Made fs p fs' dir name) : fs'.WellFormed := by
  obtain ⟨g, -, hwf, hn, -, rfl, -⟩ := h.last
  exact hwf.put hn.isName hn.lookedUp.short hn.directory (.inr rfl)

theorem Made.find? (h : Made fs p fs' dir name) : fs'.find? (name :: dir) = some .directory := by
  obtain ⟨g, -, -, -, -, rfl, -⟩ := h.last
  rw [find?_put (List.cons_ne_nil name dir), if_pos rfl]

theorem Made.not_find? (h : Made fs p fs' dir name) : fs.find? (name :: dir) = none := by
  obtain ⟨g, hk, -, -, hf, -⟩ := h.last
  cases he : fs.find? (name :: dir) with
  | none => rfl
  | some entry =>
    rw [hk.find? _ entry he] at hf
    cases hf

/-- Only directories above the place that is filled last are new. -/
theorem Made.suffix (h : Made fs p fs' dir name) {x : Location} (hx : fs.find? x = none)
    (hx' : fs'.find? x ≠ none) : x <:+ name :: dir := by
  obtain ⟨g, -, -, -, -, rfl, -, hnew⟩ := h.last
  rw [find?_put (List.cons_ne_nil name dir)] at hx'
  split at hx'
  · next e => exact e ▸ List.suffix_refl x
  · exact (hnew x hx hx').trans (List.suffix_cons name dir)

theorem Made.reaches (h : Made fs p fs' dir name) : Reaches fs' p (name :: dir) := by
  obtain ⟨g, -, -, hn, hf, rfl, -⟩ := h.last
  exact (hn.keepsDirs (Keeps.put hf .directory).dirs).reaches h.find?

theorem Made.not_reaches {q : Path} {k : OsText} {rest : List OsText} (h : Made fs q fs' dir name)
    (hnames : Path.names p = Path.names q ++ k :: rest) (habs : Path.isAbsolute q = Path.isAbsolute p)
    (hup : StepsUpFromDirectories fs p) : ¬Reaches fs' p loc := by
  intro hr
  have hstart : ∀ d : Location, startOf d q = startOf d p := by
    intro d
    unfold startOf
    rw [habs]
  have hleads := hr.leads
  rw [hnames, ← hstart, List.append_cons] at hleads
  obtain ⟨mid, links, -, hk, -⟩ := hleads.split
  have hkdot : k ≠ ['.'] := by
    have hm : k ∈ Path.names p := by simp [hnames]
    simpa using (List.mem_filter.1 hm).2
  have hkup : k ≠ ['.', '.'] := by
    rintro rfl
    obtain ⟨loc', hf, hloc'⟩ := hup _ rest hnames
    rw [← hstart] at hf
    obtain ⟨g, hkeep, -, hn, hfree, -⟩ := h.last
    exact hn.exists_of_reaches ⟨follow_eq_ok_iff.1 hf, hloc'⟩ hkeep h.not_find?
  apply hk.exists_last h.reaches.leads hkdot hkup
  obtain ⟨g, -, hwf, -, hf, rfl, -⟩ := h.last
  rw [find?_put (List.cons_ne_nil name dir), if_neg (by simp)]
  exact hwf.find?_below (by rw [hf]; simp) (isBelow_cons k _)

theorem Made.names_ne_nil (h : Made fs p fs' dir name) : Path.names p ≠ [] := by
  obtain ⟨g, -, -, hn, -⟩ := h.last
  obtain ⟨pre, hpre, -⟩ := hn.names
  simp [hpre]

theorem Made.exists_last {q : Path} (h : Made fs q fs' dir name) (hq : Path.parent? p = some q) :
    ∃ k, Path.names p = Path.names q ++ [k] := by
  have hnames := (Path.names_parent hq).1
  have hne : Path.names p ≠ [] := fun e => h.names_ne_nil (by rw [hnames, e]; rfl)
  exact ⟨(Path.names p).getLast hne, by rw [hnames, List.dropLast_concat_getLast]⟩

theorem Made.not_isDirectory {q : Path} (h : Made fs q fs' dir name) (hq : Path.parent? p = some q)
    (hup : StepsUpFromDirectories fs p) : fs'.isDirectory p = false := by
  rw [Bool.eq_false_iff]
  intro hd
  obtain ⟨-, -, loc, hr⟩ := isDirectory_iff.1 hd
  obtain ⟨k, hk⟩ := h.exists_last hq
  exact h.not_reaches hk (Path.names_parent hq).2 hup hr

/-- The place that a path names lies in the one that its parent filled. -/
theorem Made.next {q : Path} {dir' : Location} {name' : OsText} (h : Made fs q fs' dir name)
    (hq : Path.parent? p = some q) (hp : Named fs' p dir' name') (hf' : fs'.find? (name' :: dir') = none) :
    Made fs p (fs'.put (name' :: dir') .directory) dir' name' := by
  obtain ⟨pre, hpre, hl⟩ := hp.names
  have hnames := (Path.names_parent hq).1
  rw [hpre, List.dropLast_concat] at hnames
  rw [← hnames, ← startOf_parent _ hq] at hl
  obtain rfl : dir' = name :: dir := hl.unique h.reaches.leads
  exact ⟨fs', h.keeps, h.wellFormed, hp, hf', rfl, .inr h.not_find?, fun x hx hx' => h.suffix hx hx'⟩

/-- A path's directory is made at once, or after the place that its parent names was filled. -/
def MadeLast (fs : FileSystem) (p : Path) (fs' : FileSystem) : Prop :=
  makeDir p fs = .ok () fs' ∨
    ∃ q fs₁ dir name, Path.parent? p = some q ∧ Made fs q fs₁ dir name ∧ makeDir p fs₁ = .ok () fs'

theorem MadeLast.exists_made (h : MadeLast fs p fs') (hwf : fs.WellFormed) : ∃ dir name, Made fs p fs' dir name := by
  rcases h with hm | ⟨q, fs₁, dir, name, hq, hmade, hm⟩
  · obtain ⟨dir, name, hn, hf, rfl⟩ := makeDir_eq_ok_iff.1 hm
    exact ⟨dir, name, fs, Keeps.refl fs, hwf, hn, hf, rfl, .inl rfl, fun x hx hx' => absurd hx hx'⟩
  · obtain ⟨dir', name', hn, hf, rfl⟩ := makeDir_eq_ok_iff.1 hm
    exact ⟨dir', name', hmade.next hq hn hf⟩

/-- The directories of a path are there, or its own is made last. -/
theorem makeDirsUp_eq_ok (hwf : fs.WellFormed) {n : Nat} (hup : StepsUpFromDirectories fs p)
    (h : makeDirsUp (Path.ancestorsUpTo n p) fs = .ok () fs') :
    fs' = fs ∧ (n = 0 ∨ p = [] ∨ fs.isDirectory p = true) ∨ MadeLast fs p fs' := by
  induction n generalizing p fs' with
  | zero =>
    cases h
    exact .inl ⟨rfl, .inl rfl⟩
  | succ n ih =>
    rw [ancestorsUpTo_succ] at h
    rcases makeDirsUp_cons_eq_ok h with ⟨rfl, hn⟩ | hm | ⟨⟨g, hm⟩, fs₁, ha, hlast⟩
    · exact .inl ⟨rfl, .inr hn⟩
    · exact .inr (.inl hm)
    have habove : fs₁ = fs ∨ ∃ q dir name, Path.parent? p = some q ∧ Made fs q fs₁ dir name := by
      cases hq : Path.parent? p with
      | none =>
        rw [hq] at ha
        cases ha
        exact .inl rfl
      | some q =>
        rw [hq] at ha
        refine (ih (hup.parent hq) ha).imp And.left fun hmade => ?_
        obtain ⟨dir, name, hmade⟩ := hmade.exists_made hwf
        exact ⟨q, dir, name, rfl, hmade⟩
    rcases habove with rfl | ⟨q, dir, name, hq, hmade⟩
    · exact hlast.imp (And.imp_right fun hd => .inr (.inr hd)) fun h => .inl h.2
    · rcases hlast with ⟨rfl, hd⟩ | ⟨-, hm⟩
      · rw [hmade.not_isDirectory hq hup] at hd
        cases hd
      · exact .inr (.inr ⟨q, fs₁, dir, name, hq, hmade, hm⟩)

/-- A path above the given one, as many names higher as one likes. -/
def IsAbove (q p : Path) : Prop :=
  (∃ k rest, Path.names p = Path.names q ++ k :: rest) ∧ Path.isAbsolute q = Path.isAbsolute p

theorem IsAbove.of_parent {q r : Path} (h : IsAbove r q) (hq : Path.parent? p = some q) : IsAbove r p := by
  obtain ⟨⟨k, rest, hk⟩, habs⟩ := h
  obtain ⟨hnames, habs'⟩ := Path.names_parent hq
  have hne : Path.names p ≠ [] := by
    intro e
    rw [hk, e] at hnames
    simp at hnames
  refine ⟨⟨k, rest ++ [(Path.names p).getLast hne], ?_⟩, habs.trans habs'⟩
  rw [← List.cons_append, ← List.append_assoc, ← hk, hnames, List.dropLast_concat_getLast]

/-- Where the directories of a path could not be made, at most one above it was, with those above that. -/
theorem makeDirsUp_eq_error {n : Nat} {e : OsError} (hwf : fs.WellFormed) (hup : StepsUpFromDirectories fs p)
    (h : makeDirsUp (Path.ancestorsUpTo n p) fs = .error e fs') :
    fs' = fs ∨ ∃ q dir name, IsAbove q p ∧ Made fs q fs' dir name := by
  induction n generalizing p fs' with
  | zero => cases h
  | succ n ih =>
    rw [ancestorsUpTo_succ, makeDirsUp_cons] at h
    split at h
    · cases h
    split at h
    · cases h
    · next hm =>
      cases hq : Path.parent? p with
      | none =>
        rw [hq] at h
        have h' : (if fs.isDirectory p = true then .ok () fs else makeDir p fs : EStateM.Result OsError FileSystem Unit) =
            .error e fs' := h
        split at h'
        · cases h'
        · exact .inl (makeDir_eq_error h')
      | some q =>
        rw [hq] at h
        split at h
        · next fs₁ ha =>
          split at h
          · cases h
          · rw [makeDir_eq_error h]
            rcases makeDirsUp_eq_ok hwf (hup.parent hq) ha with ⟨rfl, -⟩ | hlast
            · exact .inl rfl
            · obtain ⟨dir, name, hmade⟩ := hlast.exists_made hwf
              obtain ⟨k, hk⟩ := hmade.exists_last hq
              exact .inr ⟨q, dir, name, ⟨⟨k, [], hk⟩, (Path.names_parent hq).2⟩, hmade⟩
        · next ha =>
          cases h
          rcases ih (hup.parent hq) ha with rfl | ⟨r, dir, name, hr, hmade⟩
          · exact .inl rfl
          · exact .inr ⟨r, dir, name, hr.of_parent hq, hmade⟩
    · split at h <;> cases h
      exact .inl rfl

theorem makeDirs_madeLast (hwf : fs.WellFormed) (hp : p ≠ []) (hup : StepsUpFromDirectories fs p)
    (hd : fs.isDirectory p = false) (h : makeDirs p fs = .ok () fs') : MadeLast fs p fs' := by
  rcases makeDirsUp_eq_ok hwf hup h with ⟨-, hn | hn | hn⟩ | hlast
  · cases hn
  · exact absurd hn hp
  · rw [hd] at hn
    cases hn
  · exact hlast

/-- A path that was no directory is made one at a place that was free. -/
theorem makeDirs_eq_ok (hwf : fs.WellFormed) (hp : p ≠ []) (hup : StepsUpFromDirectories fs p)
    (hd : fs.isDirectory p = false) (h : makeDirs p fs = .ok () fs') : ∃ dir name, Made fs p fs' dir name :=
  (makeDirs_madeLast hwf hp hup hd h).exists_made hwf

/-! ## A directory below another -/

theorem Reaches.not_isDirectory_join (h : Reaches fs base loc) (hn : Path.IsName name)
    (hf : fs.find? (name :: loc) = none) : fs.isDirectory (Path.join base name) = false := by
  rw [Bool.eq_false_iff]
  intro hd
  obtain ⟨-, -, dir, hr⟩ := isDirectory_iff.1 hd
  have hl := hr.leads
  rw [startOf_join _ hn, Path.names_join hn] at hl
  exact hl.exists_last h.leads hn.notDot hn.notDotDot hf

/-- A directory below one that is there is made in one step, unless its name is too long. -/
theorem makeDirs_join (h : Reaches fs base loc) (hn : Path.IsName name) (hf : fs.find? (name :: loc) = none) :
    makeDirs (Path.join base name) fs =
      if OsText.size (Path.join base name) ≥ maxPath ∨ OsText.size name > fs.nameLimit then
        .error .nameTooLong fs
      else .ok () (fs.put (name :: loc) .directory) := by
  show makeDirsUp (Path.ancestorsUpTo ((Path.join base name).length + 1 + 1) (Path.join base name)) fs = _
  rw [ancestorsUpTo_succ, makeDirsUp_cons, if_neg (Path.join_ne_nil hn)]
  have hs := h.slot_join hn
  by_cases hlong : OsText.size (Path.join base name) ≥ maxPath ∨ OsText.size name > fs.nameLimit
  · rw [if_pos hlong] at hs ⊢
    rw [makeDir_of_slot_error hs, h.not_isDirectory_join hn hf]
    rfl
  · rw [if_neg hlong] at hs ⊢
    rw [makeDir_of_named (slot_eq_name_iff.1 hs).1, hf]
    rfl

theorem makeDirs_join_eq_ok (h : Reaches fs base loc) (hn : Path.IsName name) (hf : fs.find? (name :: loc) = none)
    (hm : makeDirs (Path.join base name) fs = .ok () fs') :
    Named fs (Path.join base name) loc name ∧ fs' = fs.put (name :: loc) .directory := by
  rw [makeDirs_join h hn hf] at hm
  split_ifs at hm with hlong
  cases hm
  rw [not_or, ge_iff_le, gt_iff_lt, Nat.not_le, Nat.not_lt] at hlong
  exact ⟨h.named hn hlong.1 hlong.2, rfl⟩

theorem makeDirs_join_eq_error {e : OsError} (h : Reaches fs base loc) (hn : Path.IsName name)
    (hf : fs.find? (name :: loc) = none) (hm : makeDirs (Path.join base name) fs = .error e fs') : fs' = fs := by
  rw [makeDirs_join h hn hf] at hm
  split_ifs at hm
  cases hm
  rfl

end

end ThriftModules.FileSystem
