import ThriftModules.Proofs.Run.Alone

/-!
# Compilers that write given files

* `writeFile_join` : a file written under a name in a directory;
* `writing` : the compiler that writes given files into its output directory, by source and target alone;
* `confined_writing`, `determined_writing` : it keeps to its output directory, and it goes by its request.
-/

namespace ThriftModules.FileSystem

set_option autoImplicit false

section
variable {fs : FileSystem} {base : Path} {loc : Location} {name : OsText} {content : Content}

theorem fileAfter_ne_link (content : Content) (entry : Option Entry) (target : Path) :
    fileAfter content entry ≠ .link target := by
  unfold fileAfter
  split <;> simp

theorem writeFile_join (hbase : Reaches fs base loc) (hn : Path.IsName name)
    (hlink : ∀ target, fs.find? (name :: loc) ≠ some (.link target)) :
    writeFile (Path.join base name) content fs =
      if OsText.size (Path.join base name) ≥ maxPath ∨ OsText.size name > fs.nameLimit then
        .error .nameTooLong fs
      else if fs.find? (name :: loc) = some .directory then .error .isDirectory fs
      else .ok () (fs.put (name :: loc) (fileAfter content (fs.find? (name :: loc)))) := by
  have hslot := hbase.slot_join hn
  unfold slot at hslot
  have htarget : fs.writeTarget maxLinks fs.workDir (Path.join base name) =
      if OsText.size (Path.join base name) ≥ maxPath ∨ OsText.size name > fs.nameLimit then
        .error .nameTooLong
      else if fs.find? (name :: loc) = some .directory then .error .isDirectory
      else .ok (name :: loc) := by
    unfold writeTarget
    rw [hslot]
    split_ifs with hlong hd
    · rfl
    · simp only [bind, Except.bind, hd]
    · cases he : fs.find? (name :: loc) with
      | none => simp only [bind, Except.bind, he]
      | some entry =>
        cases entry with
        | directory => exact absurd he hd
        | link target => exact absurd he (hlink target)
        | file c b => simp only [bind, Except.bind, he]
  have hok : ∀ place, fs.writeTarget maxLinks fs.workDir (Path.join base name) = .ok place →
      writeFile (Path.join base name) content fs = .ok () (fs.put place (fileAfter content (fs.find? place))) := by
    intro place hplace
    unfold writeFile
    show EStateM.bind _ _ fs = _
    unfold EStateM.bind inspect
    simp only [hplace]
    rfl
  have herror : ∀ e, fs.writeTarget maxLinks fs.workDir (Path.join base name) = .error e →
      writeFile (Path.join base name) content fs = .error e fs := by
    intro e he
    unfold writeFile
    show EStateM.bind _ _ fs = _
    unfold EStateM.bind inspect
    simp only [he]
  split_ifs at htarget ⊢
  · exact herror _ htarget
  · exact herror _ htarget
  · exact hok _ htarget

theorem writeFile_join_eq_ok {fs' : FileSystem} (hbase : Reaches fs base loc) (hn : Path.IsName name)
    (hlink : ∀ target, fs.find? (name :: loc) ≠ some (.link target)) :
    writeFile (Path.join base name) content fs = .ok () fs' ↔
      (OsText.size (Path.join base name) < maxPath ∧ OsText.size name ≤ fs.nameLimit ∧
        fs.find? (name :: loc) ≠ some .directory) ∧
      fs' = fs.put (name :: loc) (fileAfter content (fs.find? (name :: loc))) := by
  rw [writeFile_join hbase hn hlink]
  split_ifs with hlong hd
  · constructor
    · intro h
      cases h
    · rintro ⟨⟨h₁, h₂, -⟩, -⟩
      omega
  · constructor
    · intro h
      cases h
    · rintro ⟨⟨-, -, h⟩, -⟩
      exact absurd hd h
  · obtain ⟨h₁, h₂⟩ := not_or.1 hlong
    constructor
    · intro h
      cases h
      exact ⟨⟨Nat.lt_of_not_le h₁, Nat.not_lt.1 h₂, hd⟩, rfl⟩
    · rintro ⟨-, rfl⟩
      rfl

end

end ThriftModules.FileSystem

namespace ThriftModules.Run

open FileSystem (DiskM Frame KeepsDirs Reaches fileAfter find?_put isBelow isBelow_cons orFail)

def writeAll (dir : Path) : List (OsText × Text) → DiskM Text Unit
  | [] => pure ()
  | (name, text) :: rest => do
    orFail OsError.message (FileSystem.writeFile (Path.join dir name) (.text text))
    writeAll dir rest

/-- The compiler that writes given files into its output directory, by source and target alone, and succeeds. -/
def writing (files : Path → Target → List (OsText × Text)) : Compiler := fun r => do
  writeAll r.outputDir (files r.source r.target)
  return ⟨some 0, []⟩

section
variable {fs fs' g : FileSystem} {dir : Path} {loc : Location} {files : List (OsText × Text)}

theorem writing_eq_ok {plan : Path → Target → List (OsText × Text)} {r : Request} {outcome : Outcome} :
    writing plan r fs = .ok outcome fs' ↔
      writeAll r.outputDir (plan r.source r.target) fs = .ok () fs' ∧ outcome = ⟨some 0, []⟩ := by
  unfold writing
  constructor
  · intro h
    obtain ⟨u, g, h₁, h₂⟩ := Chain.run_bind_eq_ok.1 h
    cases h₂
    exact ⟨h₁, rfl⟩
  · rintro ⟨h, rfl⟩
    exact Chain.run_bind_eq_ok.2 ⟨(), fs', h, rfl⟩

/-- A directory that files are written into: it is there, and no link lies below it. -/
structure Receives (fs : FileSystem) (dir : Path) (loc : Location) : Prop where
  wellFormed : fs.WellFormed
  reaches : Reaches fs dir loc
  noLinks : HasNoLinks fs loc

theorem writeAll_cons {name : OsText} {text : Text} {rest : List (OsText × Text)} :
    writeAll dir ((name, text) :: rest) fs = .ok () fs' ↔
      ∃ g, FileSystem.writeFile (Path.join dir name) (.text text) fs = .ok () g ∧ writeAll dir rest g = .ok () fs' := by
  rw [writeAll, Chain.run_bind_eq_ok]
  constructor
  · rintro ⟨u, g, h₁, h₂⟩
    exact ⟨g, Output.orFail_eq_ok.1 h₁, h₂⟩
  · rintro ⟨g, h₁, h₂⟩
    exact ⟨(), g, Output.orFail_eq_ok.2 h₁, h₂⟩

/-- A file is written there unless its name or its path is too long, or a directory has its name. -/
theorem Receives.writeFile_eq_ok {name : OsText} (content : Content) (h : Receives fs dir loc) (hn : Path.IsName name) :
    FileSystem.writeFile (Path.join dir name) content fs = .ok () fs' ↔
      (OsText.size (Path.join dir name) < FileSystem.maxPath ∧ OsText.size name ≤ fs.nameLimit ∧
        fs.find? (name :: loc) ≠ some .directory) ∧
      fs' = fs.put (name :: loc) (fileAfter content (fs.find? (name :: loc))) :=
  FileSystem.writeFile_join_eq_ok h.reaches hn fun target => h.noLinks _ target (isBelow_cons name loc)

theorem Receives.put {name : OsText} {content : Content} (h : Receives fs dir loc) (hn : Path.IsName name)
    (hshort : OsText.size name ≤ fs.nameLimit) (hd : fs.find? (name :: loc) ≠ some .directory) :
    Receives (fs.put (name :: loc) (fileAfter content (fs.find? (name :: loc)))) dir loc := by
  have hkeeps : KeepsDirs fs (fs.put (name :: loc) (fileAfter content (fs.find? (name :: loc)))) := by
    refine ⟨fun x entry hx he => ?_, rfl, rfl⟩
    rw [find?_put (List.cons_ne_nil _ _), if_neg, hx]
    rintro rfl
    cases entry with
    | directory => exact hd hx
    | file c b => exact he c b rfl
    | link target => exact h.noLinks _ target (isBelow_cons name loc) hx
  refine ⟨h.wellFormed.put hn hshort h.reaches.directory (.inl hd), h.reaches.keepsDirs hkeeps, fun x target hx => ?_⟩
  rw [find?_put (List.cons_ne_nil _ _)]
  split
  · exact fun e => FileSystem.fileAfter_ne_link _ _ _ (Option.some.inj e)
  · exact h.noLinks x target hx

theorem Receives.writeAll_frame (h : Receives fs dir loc) (hn : ∀ file ∈ files, Path.IsName file.1)
    (hw : writeAll dir files fs = .ok () fs') :
    Frame fs fs' (isBelow loc · = true) ∧ Receives fs' dir loc := by
  induction files generalizing fs with
  | nil =>
    cases hw
    exact ⟨Frame.refl _ _, h⟩
  | cons file files ih =>
    obtain ⟨name, text⟩ := file
    have hname : Path.IsName name := hn _ List.mem_cons_self
    obtain ⟨g, h₁, h₂⟩ := writeAll_cons.1 hw
    obtain ⟨⟨-, hshort, hd⟩, rfl⟩ := (h.writeFile_eq_ok _ hname).1 h₁
    obtain ⟨hf, hr⟩ := ih (h.put hname hshort hd) (fun f hf => hn f (List.mem_cons_of_mem _ hf)) h₂
    refine ⟨Frame.trans ((Frame.put fs (List.cons_ne_nil _ _) _).mono fun x hx => ?_) hf, hr⟩
    rw [hx]
    exact isBelow_cons name loc

theorem Receives.writeAll_congr (h : Receives fs dir loc) (h' : Receives fs' dir loc)
    (hlimit : fs'.nameLimit = fs.nameLimit) (hsame : ∀ x, isBelow loc x = true → fs'.find? x = fs.find? x)
    (hn : ∀ file ∈ files, Path.IsName file.1) (hw : writeAll dir files fs = .ok () g) :
    ∃ g', writeAll dir files fs' = .ok () g' ∧ ∀ x, isBelow loc x = true → g'.find? x = g.find? x := by
  induction files generalizing fs fs' with
  | nil =>
    cases hw
    exact ⟨fs', rfl, hsame⟩
  | cons file files ih =>
    obtain ⟨name, text⟩ := file
    have hname : Path.IsName name := hn _ List.mem_cons_self
    have hat := hsame _ (isBelow_cons name loc)
    obtain ⟨g₁, h₁, h₂⟩ := writeAll_cons.1 hw
    obtain ⟨⟨hlen, hshort, hd⟩, rfl⟩ := (h.writeFile_eq_ok _ hname).1 h₁
    have hshort' : OsText.size name ≤ fs'.nameLimit := hlimit ▸ hshort
    have hd' : fs'.find? (name :: loc) ≠ some .directory := hat ▸ hd
    have hsame' : ∀ x, isBelow loc x = true →
        (fs'.put (name :: loc) (fileAfter (.text text) (fs'.find? (name :: loc)))).find? x =
          (fs.put (name :: loc) (fileAfter (.text text) (fs.find? (name :: loc)))).find? x := by
      intro x hx
      rw [find?_put (List.cons_ne_nil _ _), find?_put (List.cons_ne_nil _ _), hat, hsame x hx]
    obtain ⟨g', hg', hag⟩ := ih (h.put hname hshort hd) (h'.put hname hshort' hd') hlimit hsame'
      (fun f hf => hn f (List.mem_cons_of_mem _ hf)) h₂
    have hwrite' := (h'.writeFile_eq_ok (.text text) hname).2 ⟨⟨hlen, hshort', hd'⟩, rfl⟩
    exact ⟨g', writeAll_cons.2 ⟨_, hwrite', hg'⟩, hag⟩

end

section
variable {plan : Path → Target → List (OsText × Text)}

/-- A compiler that writes given files keeps to its output directory. -/
theorem confined_writing (hn : ∀ source target, ∀ file ∈ plan source target, Path.IsName file.1) :
    Confined (writing plan) := by
  constructor
  intro r fs fs' loc outcome hwf hs hlinks h
  obtain ⟨hw, -⟩ := writing_eq_ok.1 h
  have hreceives : Receives fs r.outputDir loc := ⟨hwf, (FileSystem.stat_eq_directory_iff.1 hs).2.2, hlinks⟩
  obtain ⟨hf, hr⟩ := hreceives.writeAll_frame (hn r.source r.target) hw
  exact ⟨hf, hr.wellFormed, hr.noLinks⟩

theorem determined_writing (hn : ∀ source target, ∀ file ∈ plan source target, Path.IsName file.1)
    (zone : Location → Bool) : Determined (writing plan) zone := by
  constructor
  intro r fs fs' g loc outcome hwf hwf' hframe hs hs' hempty hempty' h
  obtain ⟨hw, rfl⟩ := writing_eq_ok.1 h
  have hreceives : ∀ {fs : FileSystem}, fs.WellFormed → fs.stat r.outputDir = .ok (loc, .directory) →
      fs.children loc = [] → Receives fs r.outputDir loc := by
    intro fs hwf hs hempty
    refine ⟨hwf, (FileSystem.stat_eq_directory_iff.1 hs).2.2, fun x target hx => ?_⟩
    rw [hwf.below_of_children hempty hx]
    simp
  have hsame : ∀ x, isBelow loc x = true → fs'.find? x = fs.find? x := fun x hx =>
    (hwf'.below_of_children hempty' hx).trans (hwf.below_of_children hempty hx).symm
  obtain ⟨g', hg', hag⟩ := (hreceives hwf hs hempty).writeAll_congr (hreceives hwf' hs' hempty') hframe.nameLimit hsame
    (hn r.source r.target) hw
  exact ⟨g', writing_eq_ok.2 ⟨hg', rfl⟩, hag⟩

end

end ThriftModules.Run
