import ThriftModules.Output.Files
import ThriftModules.Proofs.Ends
import ThriftModules.Proofs.FileSystem.Same

/-!
# Files written in one move

* `makeTemp_eq`, `renameFile_eq` : what comes of a fresh file and of a file moved, by what stands where they go;
* `PutsAt` : a text stands at the place that a path names, and nothing else has changed;
* `writeThrough` : a text put at a path in one move, whichever way it is written into the fresh file (`Fills`,
  `writeThrough_ends`); a text written at once is one way (`writeAtomically_eq_writeThrough`);
* `putsAt_of_writeAtomically`, `writeAtomically_eq_error`, `exists_writeAtomically_iff` : what comes of it, and when;
* `IsAtomic`, `writeAtomically_atomic` : a text put in one move is there in whole, or nothing has changed.
-/

namespace ThriftModules.Output

set_option autoImplicit false

open FileSystem (Disk DiskM Named Reaches Frame Keeps KeepsDirs inspect orFail runOn find?_put find?_erase)
open Chain (Ends)

section
variable {fs fs' : FileSystem} {path : Path} {dir : Location} {name text : Text}

theorem orFail_eq_ok {ε ε' α : Type} {rename : ε → ε'} {x : DiskM ε α} {a : α} :
    orFail rename x fs = .ok a fs' ↔ x fs = .ok a fs' := by
  unfold orFail
  cases x fs with
  | ok b fs₁ => simp
  | error e fs₁ => simp

theorem ends_orFail_renamed {ε ε' α : Type} {rename : ε → ε'} {x : DiskM ε α} {P : α → FileSystem → Prop}
    {E : ε → FileSystem → Prop} (h : Ends P E (x fs)) :
    Ends P (fun e fs' => ∃ cause, e = rename cause ∧ E cause fs') (orFail rename x fs) := by
  unfold orFail
  cases hx : x fs with
  | ok a fs' => exact h.ok hx
  | error e fs' => exact ⟨e, rfl, h.error hx⟩

theorem ends_orFail {ε ε' α : Type} {rename : ε → ε'} {x : DiskM ε α} {P : α → FileSystem → Prop}
    {E : FileSystem → Prop} (h : Ends P (fun _ => E) (x fs)) : Ends P (fun _ => E) (orFail rename x fs) :=
  (ends_orFail_renamed h).mono (fun _ _ hP => hP) fun _ _ ⟨_, _, hE⟩ => hE

/-! ## A fresh file -/

theorem freshName?_free (h : fs.freshName? dir = some name) : fs.find? (name :: dir) = none := by
  simpa using List.find?_some h

theorem tempPlace_free {above : Path} {temp : Location} (h : fs.tempPlace above = .ok temp) :
    temp ≠ [] ∧ fs.find? temp = none := by
  obtain ⟨loc, -, h⟩ := Chain.bind_eq_ok.1 h
  split_ifs at h
  split at h
  · cases h
  · next hname =>
    split_ifs at h
    cases h
    exact ⟨List.cons_ne_nil _ _, freshName?_free hname⟩

theorem makeTemp_eq (above : Path) (content : Content) (fs : FileSystem) : FileSystem.makeTemp above content fs =
    match fs.tempPlace above with
    | .error e => .error e fs
    | .ok temp => .ok temp (fs.put temp (.file content false)) := by
  show EStateM.bind (inspect (FileSystem.tempPlace · above)) _ fs = _
  unfold EStateM.bind inspect
  beta_reduce
  cases fs.tempPlace above <;> rfl

/-- A fresh file stands at a place that was free, and is the only change. -/
theorem makeTemp_ends (above : Path) (content : Content) (fs : FileSystem) :
    Ends (fun temp fs' => temp ≠ [] ∧ fs.find? temp = none ∧ fs' = fs.put temp (.file content false))
      (fun _ fs' => fs' = fs) (FileSystem.makeTemp above content fs) := by
  rw [makeTemp_eq]
  cases htemp : fs.tempPlace above with
  | error e => rfl
  | ok temp => exact ⟨(tempPlace_free htemp).1, (tempPlace_free htemp).2, rfl⟩

/-! ## A file moved -/

theorem renameFile_eq (source : Location) (path : Path) (fs : FileSystem) : FileSystem.renameFile source path fs =
    match fs.slot path with
    | .error e => .error e fs
    | .ok (.name dir name false) =>
      if fs.find? (name :: dir) = some .directory then .error .isDirectory fs
      else match fs.find? source with
        | some entry => .ok () ((fs.erase source).put (name :: dir) entry)
        | none => .error .notFound fs
    | .ok (.name _ _ true) => .error .notDirectory fs
    | .ok _ => .error .busy fs := by
  show EStateM.bind _ _ fs = _
  unfold EStateM.bind inspect
  beta_reduce
  cases fs.slot path with
  | error e => rfl
  | ok s =>
    cases s with
    | name dir name slash =>
      cases slash with
      | true => rfl
      | false =>
        show EStateM.bind _ _ fs = _
        unfold EStateM.bind
        simp only [Chain.run_get, Bool.false_eq_true, if_false]
        split_ifs
        · rfl
        · cases fs.find? source <;> rfl
    | _ => rfl

theorem renameFile_eq_ok_iff {source : Location} : FileSystem.renameFile source path fs = .ok () fs' ↔
    ∃ dir name entry, fs.slot path = .ok (.name dir name false) ∧ fs.find? (name :: dir) ≠ some .directory ∧
      fs.find? source = some entry ∧ fs' = (fs.erase source).put (name :: dir) entry := by
  rw [renameFile_eq]
  constructor
  · intro h
    split at h
    · cases h
    · next dir name hs =>
      split_ifs at h with hd
      split at h
      · next entry he =>
        cases h
        exact ⟨dir, name, entry, hs, hd, he, rfl⟩
      · cases h
    · cases h
    · cases h
  · rintro ⟨dir, name, entry, hs, hd, he, rfl⟩
    rw [hs]
    simp only [if_neg hd, he]

theorem renameFile_eq_error {source : Location} {e : OsError}
    (h : FileSystem.renameFile source path fs = .error e fs') : fs' = fs := by
  rw [renameFile_eq] at h
  split at h
  · cases h
    rfl
  · split_ifs at h
    · cases h
      rfl
    · split at h
      · cases h
      · cases h
        rfl
  · cases h
    rfl
  · cases h
    rfl

/-! ## What a text put in one move leaves -/

/-- `fs'` is `fs` with an entry put at a location. -/
structure Puts (fs fs' : FileSystem) (loc : Location) (entry : Entry) : Prop where
  find? : ∀ x, fs'.find? x = if x = loc then some entry else fs.find? x
  workDir : fs'.workDir = fs.workDir
  nameLimit : fs'.nameLimit = fs.nameLimit

theorem Puts.frame {loc : Location} {entry : Entry} (h : Puts fs fs' loc entry) : Frame fs fs' (· = loc) :=
  ⟨fun x hx => by rw [h.find?, if_neg hx], h.workDir, h.nameLimit⟩

/-- `fs'` is `fs` with a text at the place that the path names, where no directory stood. -/
def PutsAt (fs fs' : FileSystem) (path : Path) (text : Text) : Prop :=
  ∃ dir name, Named fs path dir name ∧ fs.find? (name :: dir) ≠ some .directory ∧
    Puts fs fs' (name :: dir) (.file (.text text) false)

theorem PutsAt.wellFormed (h : PutsAt fs fs' path text) (hwf : fs.WellFormed) : fs'.WellFormed := by
  obtain ⟨dir, name, hn, hd, hputs⟩ := h
  have hput : (fs.put (name :: dir) (.file (.text text) false)).WellFormed :=
    hwf.put hn.isName hn.lookedUp.short hn.directory (.inl hd)
  refine hput.congr (fun x => ?_) hputs.nameLimit
  rw [hputs.find?, find?_put (List.cons_ne_nil name dir)]

/-- Every directory and every link was there before, at another place. -/
theorem Puts.keepsDirs_erase (h : Puts fs fs' (name :: dir) (.file (.text text) false)) :
    KeepsDirs fs' (fs.erase (name :: dir)) := by
  refine ⟨fun x entry hx he => ?_, h.workDir.symm, h.nameLimit.symm⟩
  rw [h.find?] at hx
  rw [find?_erase (List.cons_ne_nil name dir)]
  split_ifs at hx ⊢
  · exact absurd (Option.some.inj hx).symm (he _ _)
  · exact hx

theorem Puts.keeps_erase {entry : Entry} (h : Puts fs fs' (name :: dir) entry) :
    Keeps (fs.erase (name :: dir)) fs' := by
  refine ⟨fun x e hx => ?_, h.workDir, h.nameLimit⟩
  rw [find?_erase (List.cons_ne_nil name dir)] at hx
  rw [h.find?]
  split_ifs at hx ⊢
  exact hx

theorem PutsAt.keepsDirs (h : PutsAt fs fs' path text) : KeepsDirs fs' fs := by
  obtain ⟨dir, name, -, -, hputs⟩ := h
  exact hputs.keepsDirs_erase.trans (Keeps.erase fs (List.cons_ne_nil name dir)).dirs

theorem PutsAt.find?_ne_none (h : PutsAt fs fs' path text) {x : Location} (hx : fs.find? x ≠ none) :
    fs'.find? x ≠ none := by
  obtain ⟨dir, name, -, -, hputs⟩ := h
  rw [hputs.find?]
  split
  · simp
  · exact hx

theorem PutsAt.join {base : Path} (h : PutsAt fs fs' (Path.join base name) text) (hbase : Reaches fs base dir)
    (hname : Path.IsName name) : Puts fs fs' (name :: dir) (.file (.text text) false) := by
  obtain ⟨d, n, hn, -, hputs⟩ := h
  obtain ⟨rfl, rfl⟩ := hn.of_join hbase hname
  exact hputs

/-! ## A text put in one move -/

/-- A way to write a text into a fresh file. It touches no other, also where it fails with a part of the text written. -/
def Fills (fill : Location → Disk Unit) (text : Text) : Prop :=
  ∀ (fs : FileSystem) (loc : Location), fs.find? loc = some (.file (.text []) false) →
    Ends (fun _ fs' => fs' = fs.put loc (.file (.text text) false))
      (fun _ fs' => ∃ content, fs' = fs.put loc (.file content false)) (fill loc fs)

/-- A fresh file beside `path` written by `fill` and moved there; if either fails, the fresh file is removed. -/
def writeThrough (fill : Location → Disk Unit) (path : Path) : DiskM OutputError Unit := do
  match Path.parent? path with
  | none => throw (.noParent path)
  | some dir =>
    let temp ← orFail (.build path) (FileSystem.makeTemp dir (.text []))
    match runOn (← get) (do fill temp; FileSystem.renameFile temp path) with
    | (.ok (), fs) => set fs
    | (.error e, fs) => do
      set (fs.erase temp)
      throw (.build path e)

def fillWith (text : Text) (temp : Location) : Disk Unit := modify (·.put temp (.file (.text text) false))

theorem fills_fillWith (text : Text) : Fills (fillWith text) text := fun _ _ _ => rfl

section
variable {fill : Location → Disk Unit} {temp : Location}

theorem keepsDirs_put_file (hne : temp ≠ []) (content : Content) :
    KeepsDirs (fs.put temp (.file content false)) fs := by
  refine ⟨fun x entry hx he => ?_, rfl, rfl⟩
  rw [find?_put hne] at hx
  split at hx
  · exact absurd (Option.some.inj hx).symm (he _ _)
  · exact hx

theorem putsAt_of_renameFile (hne : temp ≠ []) (hfree : fs.find? temp = none)
    (h : FileSystem.renameFile temp path (fs.put temp (.file (.text text) false)) = .ok () fs') :
    PutsAt fs fs' path text ∧ Path.endsWithSlash path = false := by
  obtain ⟨d, n, entry, hs, hd, he, rfl⟩ := renameFile_eq_ok_iff.1 h
  obtain ⟨hn, hslash⟩ := FileSystem.slot_eq_name_iff.1 hs
  rw [find?_put hne, if_pos rfl] at he
  cases he
  refine ⟨⟨d, n, hn.keepsDirs (keepsDirs_put_file hne _), fun e => hd ((Keeps.put hfree _).find? _ _ e),
    fun x => ?_, rfl, rfl⟩, hslash.symm⟩
  rw [FileSystem.erase_put hfree, find?_put (List.cons_ne_nil n d)]

/-- From the fresh file on: the text stands at the path, or nothing but the fresh file has changed. -/
theorem fill_renameFile_ends (path : Path) (hfill : Fills fill text) (hne : temp ≠ []) (hfree : fs.find? temp = none) :
    Ends (fun _ fs' => PutsAt fs fs' path text ∧ Path.endsWithSlash path = false)
      (fun _ fs' => ∃ content, fs' = fs.put temp (.file content false))
      ((do fill temp; FileSystem.renameFile temp path : Disk Unit) (fs.put temp (.file (.text []) false))) := by
  have hempty : (fs.put temp (.file (.text []) false)).find? temp = some (.file (.text []) false) := by
    rw [find?_put hne, if_pos rfl]
  refine ((hfill _ temp hempty).mono (fun _ _ h => h) ?_).bind fun _ fs₁ _ hfilled => ?_
  · rintro e fs₁ ⟨content, rfl⟩
    exact ⟨content, FileSystem.put_put fs temp _ _⟩
  · rw [FileSystem.put_put] at hfilled
    subst hfilled
    exact Chain.ends_iff.2 ⟨fun _ _ h => putsAt_of_renameFile hne hfree h, fun _ _ h => ⟨_, renameFile_eq_error h⟩⟩

/-- A text that is put through a fresh file is there, or nothing has changed, whichever step failed. -/
theorem writeThrough_ends (hfill : Fills fill text) (path : Path) (fs : FileSystem) :
    Ends (fun _ fs' => PutsAt fs fs' path text ∧ Path.endsWithSlash path = false)
      (fun e fs' => fs' = fs ∧ (Path.parent? path = none ∨ ∃ cause, e = .build path cause))
      (writeThrough fill path fs) := by
  unfold writeThrough
  cases Path.parent? path with
  | none => exact ⟨rfl, .inl rfl⟩
  | some above =>
    refine ((ends_orFail_renamed (makeTemp_ends above _ fs)).mono (fun _ _ h => h) ?_).bind ?_
    · rintro e fs' ⟨cause, rfl, hfs⟩
      exact ⟨hfs, .inr ⟨cause, rfl⟩⟩
    rintro temp fs₁ - ⟨hne, hfree, rfl⟩
    have hmove := fill_renameFile_ends path hfill hne hfree
    refine Ends.bind_of_ok (Chain.run_get _) ?_
    unfold runOn
    split
    · next hr => exact hmove.ok hr
    · next cause fs₂ hr =>
      obtain ⟨content, rfl⟩ := hmove.error hr
      exact ⟨FileSystem.erase_put hfree, .inr ⟨cause, rfl⟩⟩

end

/-- A fresh file that is made with the text is one that the text is written into at once. -/
theorem writeAtomically_eq_writeThrough (path : Path) (text : Text) (fs : FileSystem) :
    writeAtomically path text fs = writeThrough (fillWith text) path fs := by
  unfold writeAtomically writeThrough
  cases Path.parent? path with
  | none => rfl
  | some above =>
    show EStateM.bind _ _ fs = EStateM.bind _ _ fs
    unfold EStateM.bind orFail
    rw [makeTemp_eq, makeTemp_eq]
    cases fs.tempPlace above with
    | error e => rfl
    | ok temp =>
      simp only [bind, EStateM.bind, Chain.run_get, runOn, fillWith, Chain.run_modify, FileSystem.put_put]
      cases FileSystem.renameFile temp path _ <;> rfl

theorem writeAtomically_ends (path : Path) (text : Text) (fs : FileSystem) :
    Ends (fun _ fs' => PutsAt fs fs' path text ∧ Path.endsWithSlash path = false)
      (fun e fs' => fs' = fs ∧ (Path.parent? path = none ∨ ∃ cause, e = .build path cause))
      (writeAtomically path text fs) := by
  rw [writeAtomically_eq_writeThrough]
  exact writeThrough_ends (fills_fillWith text) path fs

theorem putsAt_of_writeAtomically (h : writeAtomically path text fs = .ok () fs') : PutsAt fs fs' path text :=
  ((writeAtomically_ends path text fs).ok h).1

/-- A file that could not be written in one move has left nothing behind. -/
theorem writeAtomically_eq_error {e : OutputError} (h : writeAtomically path text fs = .error e fs') :
    fs' = fs ∧ (Path.parent? path = none ∨ ∃ cause, e = .build path cause) :=
  (writeAtomically_ends path text fs).error h

/-- A text can be put at a path exactly if a fresh file can be made beside it and the path names a place in which no
directory stands. -/
theorem exists_writeAtomically_iff (path : Path) (text : Text) (fs : FileSystem) :
    (∃ fs', writeAtomically path text fs = .ok () fs') ↔
      (∃ above temp, Path.parent? path = some above ∧ fs.tempPlace above = .ok temp) ∧
        ∃ dir name, fs.slot path = .ok (.name dir name false) ∧ fs.find? (name :: dir) ≠ some .directory := by
  constructor
  · rintro ⟨fs', h⟩
    obtain ⟨⟨dir, name, hn, hd, -⟩, hslash⟩ := (writeAtomically_ends path text fs).ok h
    refine ⟨?_, dir, name, FileSystem.slot_eq_name_iff.2 ⟨hn, hslash.symm⟩, hd⟩
    unfold writeAtomically at h
    cases hq : Path.parent? path with
    | none =>
      rw [hq] at h
      cases h
    | some above =>
      rw [hq] at h
      obtain ⟨temp, _, ht, -⟩ := Chain.run_bind_eq_ok.1 h
      rw [orFail_eq_ok, makeTemp_eq] at ht
      cases hplace : fs.tempPlace above with
      | error e =>
        rw [hplace] at ht
        cases ht
      | ok place => exact ⟨above, place, rfl, hplace⟩
  rintro ⟨⟨above, temp, hq, hplace⟩, dir, name, hs, hd⟩
  obtain ⟨hn, hslash⟩ := FileSystem.slot_eq_name_iff.1 hs
  obtain ⟨hne, hfree⟩ := tempPlace_free hplace
  have hd' : (fs.put temp (.file (.text text) false)).find? (name :: dir) ≠ some .directory := by
    rw [find?_put hne]
    split
    · simp
    · exact hd
  have htemp : (fs.put temp (.file (.text text) false)).find? temp = some (.file (.text text) false) := by
    rw [find?_put hne, if_pos rfl]
  have hmoved := renameFile_eq_ok_iff.2 ⟨dir, name, _,
    FileSystem.slot_eq_name_iff.2 ⟨hn.keepsDirs (Keeps.put hfree _).dirs, hslash⟩, hd', htemp, rfl⟩
  unfold writeAtomically
  rw [hq]
  exists ((fs.put temp (.file (.text text) false)).erase temp).put (name :: dir) (.file (.text text) false)
  have ht : FileSystem.makeTemp above (.text text) fs = .ok temp (fs.put temp (.file (.text text) false)) := by
    rw [makeTemp_eq, hplace]
  refine Chain.run_bind_eq_ok.2 ⟨temp, _, orFail_eq_ok.2 ht, ?_⟩
  refine Chain.run_bind_eq_ok.2 ⟨_, _, Chain.run_get _, ?_⟩
  unfold runOn
  rw [hmoved]
  rfl

/-! ## All or nothing -/

/-- The outcome of a text put at a path in one move is all or nothing. -/
structure IsAtomic (fs : FileSystem) (path : Path) (text : Text) (r : EStateM.Result OutputError FileSystem Unit) :
    Prop where
  /-- The text is the content of the file at the place that the path named, whatever stood there, and nothing else has
  changed. The path still names the place if it does so without the entry that stood there, as any path does that did
  not end in a link. -/
  ok : ∀ fs', r = .ok () fs' → ∃ dir name, fs.slot path = .ok (.name dir name false) ∧
    fs.find? (name :: dir) ≠ some .directory ∧ fs'.find? (name :: dir) = some (.file (.text text) false) ∧
    Frame fs fs' (· = name :: dir) ∧
    (fs'.lstat path = .ok (name :: dir, .file (.text text) false) ↔
      (fs.erase (name :: dir)).slot path = .ok (.name dir name false)) ∧
    ((∀ target, fs.find? (name :: dir) ≠ some (.link target)) →
      (fs.erase (name :: dir)).slot path = .ok (.name dir name false))
  error : ∀ e fs', r = .error e fs' → fs' = fs

/-- Without an entry that is neither a directory nor a link, a path leads where it led. -/
theorem slot_erase (h : fs.slot path = .ok (.name dir name false)) (hd : fs.find? (name :: dir) ≠ some .directory)
    (hl : ∀ target, fs.find? (name :: dir) ≠ some (.link target)) :
    (fs.erase (name :: dir)).slot path = .ok (.name dir name false) := by
  obtain ⟨hn, hslash⟩ := FileSystem.slot_eq_name_iff.1 h
  refine FileSystem.slot_eq_name_iff.2 ⟨hn.keepsDirs ⟨fun x entry hx he => ?_, rfl, rfl⟩, hslash⟩
  rw [find?_erase (List.cons_ne_nil name dir), if_neg]
  · exact hx
  rintro rfl
  cases entry with
  | directory => exact hd hx
  | link target => exact hl target hx
  | file content executable => exact he _ _ rfl

/-- The path names the file that was put iff it named its place without what stood there. -/
theorem lstat_iff_slot_erase (h : fs.slot path = .ok (.name dir name false))
    (hputs : Puts fs fs' (name :: dir) (.file (.text text) false)) :
    fs'.lstat path = .ok (name :: dir, .file (.text text) false) ↔
      (fs.erase (name :: dir)).slot path = .ok (.name dir name false) := by
  obtain ⟨hn, hslash⟩ := FileSystem.slot_eq_name_iff.1 h
  refine ⟨fun hl => ?_, fun he => ?_⟩
  · have hl' := hl
    unfold FileSystem.lstat at hl'
    obtain ⟨s, hs, -⟩ := Chain.bind_eq_ok.1 hl'
    obtain ⟨dir', rfl⟩ := hn.exists_of_slot hs
    have hn' := (FileSystem.slot_eq_name_iff.1 hs).1
    obtain ⟨hplace, -⟩ := (hn'.lstat_eq_ok_iff hslash.symm).1 hl
    obtain rfl : dir = dir' := (List.cons.inj hplace).2
    exact FileSystem.slot_eq_name_iff.2 ⟨hn'.keepsDirs hputs.keepsDirs_erase, hslash⟩
  · have hn' := (FileSystem.slot_eq_name_iff.1 he).1.keepsDirs hputs.keeps_erase.dirs
    exact (hn'.lstat_eq_ok_iff hslash.symm).2 ⟨rfl, by rw [hputs.find?, if_pos rfl]⟩

theorem isAtomic_of_ends {r : EStateM.Result OutputError FileSystem Unit}
    (h : Ends (fun _ fs' => PutsAt fs fs' path text ∧ Path.endsWithSlash path = false)
      (fun e fs' => fs' = fs ∧ (Path.parent? path = none ∨ ∃ cause, e = .build path cause)) r) :
    IsAtomic fs path text r := by
  refine ⟨fun fs' hr => ?_, fun _ _ hr => (h.error hr).1⟩
  obtain ⟨⟨dir, name, hn, hd, hputs⟩, hslash⟩ := h.ok hr
  have hs := FileSystem.slot_eq_name_iff.2 ⟨hn, hslash.symm⟩
  exact ⟨dir, name, hs, hd, by rw [hputs.find?, if_pos rfl], hputs.frame, lstat_iff_slot_erase hs hputs,
    slot_erase hs hd⟩

/-- A text is put at a path in whole or not at all, also where writing it stops half-way. -/
theorem writeAtomically_atomic (fs : FileSystem) (path : Path) (text : Text) :
    IsAtomic fs path text (writeAtomically path text fs) ∧
      ∀ fill, Fills fill text → IsAtomic fs path text (writeThrough fill path fs) :=
  ⟨isAtomic_of_ends (writeAtomically_ends path text fs), fun _ hfill => isAtomic_of_ends (writeThrough_ends hfill path fs)⟩

end

/-! ## Paths that end in a link -/

/-- The first half of a text written, and then no more. -/
def fillHalf (text : Text) (temp : Location) : Disk Unit := do
  modify (·.put temp (.file (.text (text.take (text.length / 2))) false))
  throw .busy

theorem fills_fillHalf (text : Text) : Fills (fillHalf text) text := fun _ _ _ => ⟨_, rfl⟩

def linkedFiles : FileSystem :=
  { FileSystem.bare [] with
    entries := [(["out".toList], .directory), (["old.js".toList], .file (.text "var old;".toList) false),
      (["a.js".toList, "out".toList], .link "../old.js".toList)] }

/-- A text put at a link takes its place, and the link's target is untouched; half a text leaves the link. -/
theorem writeAtomically_atomic_link :
    (∃ fs', writeAtomically "out/a.js".toList "var new;".toList linkedFiles = .ok () fs' ∧
      fs'.find? ["a.js".toList, "out".toList] = some (.file (.text "var new;".toList) false) ∧
      fs'.find? ["old.js".toList] = some (.file (.text "var old;".toList) false) ∧
      fs'.lstat "out/a.js".toList =
        .ok (["a.js".toList, "out".toList], .file (.text "var new;".toList) false)) ∧
      Fills (fillHalf "var new;".toList) "var new;".toList ∧
      IsAtomic linkedFiles "out/a.js".toList "var new;".toList
        (writeThrough (fillHalf "var new;".toList) "out/a.js".toList linkedFiles) := by
  obtain ⟨hatomic, hfill⟩ := writeAtomically_atomic linkedFiles "out/a.js".toList "var new;".toList
  refine ⟨?_, fills_fillHalf _, hfill _ (fills_fillHalf _)⟩
  have hslot : linkedFiles.slot "out/a.js".toList = .ok (.name ["out".toList] "a.js".toList false) := by
    decide +kernel
  have htemp : linkedFiles.tempPlace "out".toList = .ok [".tmpAAAAAA".toList, "out".toList] := by decide +kernel
  obtain ⟨fs', hok⟩ := (exists_writeAtomically_iff "out/a.js".toList "var new;".toList linkedFiles).2
    ⟨⟨_, _, rfl, htemp⟩, ["out".toList], "a.js".toList, hslot, by decide +kernel⟩
  obtain ⟨dir, name, hs, -, hfile, hframe, hlstat, -⟩ := hatomic.ok fs' hok
  rw [hslot] at hs
  cases hs
  exact ⟨fs', hok, hfile, hframe.find? ["old.js".toList] (by decide +kernel), hlstat.2 (by decide +kernel)⟩

def selfLinked : FileSystem := { FileSystem.bare [] with entries := [(["l".toList], .link ".".toList)] }

/-- A path that leads through the link that it names does not name the file that replaces the link. -/
theorem writeAtomically_loses_path : ¬∀ (fs : FileSystem) (path : Path) (text : Text), fs.WellFormed →
    Ends (fun _ fs' => ∃ place, fs'.lstat path = .ok (place, .file (.text text) false) ∧ Frame fs fs' (· = place))
      (fun _ fs' => fs' = fs) (writeAtomically path text fs) := by
  intro h
  have hwf : selfLinked.WellFormed := FileSystem.wellFormed_of_entries (by decide +kernel)
  have hput : writeAtomically "l/l".toList "x".toList selfLinked =
      .ok () (runOn selfLinked (writeAtomically "l/l".toList "x".toList)).2 :=
    FileSystem.eq_ok_of_runOn (by decide +kernel)
  have hlost : (runOn selfLinked (writeAtomically "l/l".toList "x".toList)).2.lstat "l/l".toList =
      .error .notDirectory := by decide +kernel
  obtain ⟨place, hl, -⟩ := (h selfLinked "l/l".toList "x".toList hwf).ok hput
  rw [hlost] at hl
  cases hl

end ThriftModules.Output
