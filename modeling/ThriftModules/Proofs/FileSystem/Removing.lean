import ThriftModules.Proofs.FileSystem.Making

/-!
# Entries removed

* `removeFile_eq_ok` : the entry at the place that a path names is gone; a removal that fails changes nothing
  (`removeFile_eq_error`);
* `removeDir_eq_ok` : so is an empty directory;
* `removeTree_cases` : what a removed tree comes to; its path stands for no directory any more (`removeTree_eq_ok`);
* `removeTree_frame` : a directory's removal changes nothing outside of it;
* `removeTree_eq_error` : a directory whose removal fails is empty all the same.
-/

namespace ThriftModules.FileSystem

set_option autoImplicit false

section
variable {fs fs' : FileSystem} {p : Path} {loc dir : Location} {name : OsText}

/-! ## One entry -/

theorem removeFile_of_slot_ne {s : Slot} (h : fs.slot p = .ok s) (hs : ∀ dir name slash, s ≠ .name dir name slash) :
    removeFile p fs = .error .isDirectory fs := by
  unfold removeFile
  simp only [bind, EStateM.bind, inspect, h]
  cases s with
  | name dir name slash => exact absurd rfl (hs dir name slash)
  | _ => rfl

theorem removeFile_of_named (h : Named fs p dir name) :
    removeFile p fs =
      match fs.find? (name :: dir) with
      | none => .error .notFound fs
      | some .directory => .error .isDirectory fs
      | some _ => if Path.endsWithSlash p then .error .notDirectory fs else .ok () (fs.erase (name :: dir)) := by
  unfold removeFile
  simp only [bind, EStateM.bind, inspect, h.slot, Chain.run_get]
  cases hf : fs.find? (name :: dir) with
  | none => rfl
  | some entry =>
    cases entry with
    | directory => rfl
    | _ => cases hs : Path.endsWithSlash p <;> rfl

theorem removeFile_eq_ok (h : removeFile p fs = .ok () fs') :
    ∃ dir name entry, Named fs p dir name ∧ fs.find? (name :: dir) = some entry ∧ entry ≠ .directory ∧
      fs' = fs.erase (name :: dir) := by
  cases hs : fs.slot p with
  | error e =>
    unfold removeFile at h
    simp [bind, EStateM.bind, inspect, hs] at h
  | ok s =>
    by_cases hname : ∃ dir name slash, s = .name dir name slash
    · obtain ⟨dir, name, slash, rfl⟩ := hname
      have hn := (slot_eq_name_iff.1 hs).1
      rw [removeFile_of_named hn] at h
      split at h
      · cases h
      · cases h
      · next entry hd he =>
        split at h
        · cases h
        · cases h
          exact ⟨dir, name, entry, hn, he, fun e => hd (e ▸ rfl), rfl⟩
    · rw [removeFile_of_slot_ne hs fun dir name slash e => hname ⟨dir, name, slash, e⟩] at h
      cases h

theorem removeFile_eq_error {e : OsError} (h : removeFile p fs = .error e fs') : fs' = fs := by
  unfold removeFile at h
  obtain h₁ | ⟨s, fs₁, h₁, hrest⟩ := Chain.run_bind_eq_error.1 h
  · exact (inspect_eq_error.1 h₁).2
  obtain ⟨-, rfl⟩ := inspect_eq_ok.1 h₁
  cases s with
  | name dir name slash =>
    obtain h₂ | ⟨fs₂, fs₃, h₂, hend⟩ := Chain.run_bind_eq_error.1 hrest
    · cases h₂
    cases h₂
    cases hf : fs₁.find? (name :: dir) with
    | none =>
      simp only [hf] at hend
      cases hend
      rfl
    | some entry =>
      cases entry with
      | directory =>
        simp only [hf] at hend
        cases hend
        rfl
      | _ =>
        cases slash <;> simp only [hf] at hend <;> cases hend
        rfl
  | _ =>
    cases hrest
    rfl

/-! ## An empty directory -/

theorem removeDir_of_named (h : Named fs p dir name) :
    removeDir p fs =
      match fs.find? (name :: dir) with
      | none => .error .notFound fs
      | some .directory =>
        if (fs.children (name :: dir)).isEmpty then .ok () (fs.erase (name :: dir)) else .error .notEmpty fs
      | some _ => .error .notDirectory fs := by
  unfold removeDir
  simp only [bind, EStateM.bind, inspect, h.slot, Chain.run_get]
  cases hf : fs.find? (name :: dir) with
  | none => rfl
  | some entry =>
    cases entry with
    | directory => cases hc : (fs.children (name :: dir)).isEmpty <;> rfl
    | _ => rfl

/-- What a removal comes to, by the place that the path names. -/
theorem removeDir_by_slot (fs : FileSystem) (p : Path) :
    removeDir p fs =
      match fs.slot p with
      | .error e => .error e fs
      | .ok .root => .error .busy fs
      | .ok (.dot _) => .error .invalid fs
      | .ok (.dotDot _) => .error .notEmpty fs
      | .ok (.name _ _ _) => removeDir p fs := by
  unfold removeDir
  simp only [bind, EStateM.bind, inspect]
  cases fs.slot p with
  | error e => rfl
  | ok s => cases s <;> rfl

theorem removeDir_eq_ok (h : removeDir p fs = .ok () fs') :
    ∃ dir name, Named fs p dir name ∧ fs.find? (name :: dir) = some .directory ∧ fs.children (name :: dir) = [] ∧
      fs' = fs.erase (name :: dir) := by
  have hr := removeDir_by_slot fs p
  cases hs : fs.slot p with
  | error e =>
    rw [hs, h] at hr
    cases hr
  | ok s =>
    cases s with
    | name dir name slash =>
      have hn := (slot_eq_name_iff.1 hs).1
      rw [removeDir_of_named hn] at h
      split at h
      · cases h
      · next hd =>
        split at h
        · next hc =>
          cases h
          exact ⟨dir, name, hn, hd, List.isEmpty_iff.1 hc, rfl⟩
        · cases h
      · cases h
    | _ =>
      rw [hs, h] at hr
      cases hr

/-- A path that stands for a directory is never missing when that is to be removed. -/
theorem removeDir_ne_notFound (h : fs.isDirectory p = true) : removeDir p fs ≠ .error .notFound fs' := by
  intro hr
  obtain ⟨hne, hlen, loc, hreach⟩ := isDirectory_iff.1 h
  have hl := hreach.leads.thick hreach.directory (thin_segments p)
  have hslot : fs.slotIn fs.workDir p = fs.slot p := rfl
  unfold slotIn at hslot
  rw [if_neg hne, if_neg (Nat.not_le.2 hlen)] at hslot
  cases hlast : (Path.segments p).getLast? with
  | none =>
    rw [hlast] at hslot
    rw [removeDir_by_slot, ← hslot] at hr
    cases hr
  | some last =>
    obtain ⟨pre, hpre⟩ := List.getLast?_eq_some_iff.1 hlast
    rw [hpre] at hl
    obtain ⟨mid, links, -, h₁, h₂⟩ := hl.split
    have hmid : fs.find? mid = some .directory := h₂.start_directory hreach.directory
    rw [hlast, hpre, List.dropLast_concat] at hslot
    simp only [h₁.follow_eq, bind, Except.bind] at hslot
    rw [if_neg (not_not.2 hmid)] at hslot
    split_ifs at hslot with hdot hdotDot hlong
    · rw [removeDir_by_slot, ← hslot] at hr
      cases hr
    · rw [removeDir_by_slot, ← hslot] at hr
      cases hr
    · rw [removeDir_by_slot, ← hslot] at hr
      cases hr
    · have hn := (slot_eq_name_iff.1 hslot.symm).1
      have he := hl.exists_last h₁ hdot hdotDot
      rw [removeDir_of_named hn] at hr
      split at hr
      · next hf => exact he hf
      · split at hr <;> cases hr
      · cases hr

/-! ## A tree -/

theorem removeTree_of_directory (h : fs.lstat p = .ok (loc, .directory)) :
    removeTree p fs =
      match removeDir p (fs.eraseBelow loc) with
      | .ok () fs' => .ok () fs'
      | .error .notFound _ => .ok () (fs.eraseBelow loc)
      | .error e _ => .error e (fs.eraseBelow loc) := by
  unfold removeTree
  simp only [bind, EStateM.bind, inspect, h, Chain.run_modify, Chain.run_get, runOn]
  cases removeDir p (fs.eraseBelow loc) with
  | ok a fs' => rfl
  | error e fs' => cases e <;> rfl

theorem removeTree_of_link {target : Path} (h : fs.lstat p = .ok (loc, .link target)) :
    removeTree p fs = removeFile p fs := by
  unfold removeTree
  simp only [bind, EStateM.bind, inspect, h]

/-- A tree that was removed: what the path names is gone, a link alone or an emptied directory; or the directory that the
path stands for is emptied, and then the path leads nowhere any more. -/
theorem removeTree_cases (h : removeTree p fs = .ok () fs') :
    (∃ dir name entry, Named fs p dir name ∧ fs.find? (name :: dir) = some entry ∧ entry ≠ .directory ∧
        fs' = fs.erase (name :: dir)) ∨
      ∃ top, fs.lstat p = .ok (top, .directory) ∧
        ((∃ dir name, Named (fs.eraseBelow top) p dir name ∧ (fs.eraseBelow top).children (name :: dir) = [] ∧
            fs' = (fs.eraseBelow top).erase (name :: dir)) ∨
          (fs.eraseBelow top).isDirectory p = false ∧ fs' = fs.eraseBelow top) := by
  cases hl : fs.lstat p with
  | error e =>
    unfold removeTree at h
    simp [bind, EStateM.bind, inspect, hl] at h
  | ok found =>
    obtain ⟨top, entry⟩ := found
    cases entry with
    | link target =>
      rw [removeTree_of_link hl] at h
      exact .inl (removeFile_eq_ok h)
    | directory =>
      refine .inr ⟨top, rfl, ?_⟩
      rw [removeTree_of_directory hl] at h
      split at h
      · next hr =>
        cases h
        obtain ⟨dir, name, hn, -, hc, rfl⟩ := removeDir_eq_ok hr
        exact .inl ⟨dir, name, hn, hc, rfl⟩
      · next hr =>
        cases h
        exact .inr ⟨Bool.eq_false_iff.2 fun hd => removeDir_ne_notFound hd hr, rfl⟩
      · cases h
    | file content executable =>
      unfold removeTree at h
      simp [bind, EStateM.bind, inspect, hl] at h
      cases h

theorem removeTree_keeps (h : removeTree p fs = .ok () fs') : Keeps fs' fs := by
  rcases removeTree_cases h with ⟨dir, name, entry, -, -, -, rfl⟩ | ⟨top, -, ⟨dir, name, -, -, rfl⟩ | ⟨-, rfl⟩⟩
  · exact Keeps.erase fs (List.cons_ne_nil name dir)
  · exact (Keeps.erase _ (List.cons_ne_nil name dir)).trans (Keeps.eraseBelow fs top)
  · exact Keeps.eraseBelow fs top

theorem removeTree_eq_ok (hwf : fs.WellFormed) (h : removeTree p fs = .ok () fs') :
    fs'.WellFormed ∧ fs'.isDirectory p = false := by
  -- an entry that is no more cannot be reached
  have hgone : ∀ {g : FileSystem} {dir : Location} {name : OsText}, Named g p dir name →
      (g.erase (name :: dir)).isDirectory p = false := by
    intro g dir name hn
    have hne := List.cons_ne_nil name dir
    rw [Bool.eq_false_iff]
    intro hd
    obtain ⟨-, -, loc, hr⟩ := isDirectory_iff.1 hd
    apply hn.exists_of_reaches hr (Keeps.erase g hne)
    rw [find?_erase hne, if_pos rfl]
  rcases removeTree_cases h with ⟨dir, name, entry, hn, he, hd, rfl⟩ | ⟨top, -, ⟨dir, name, hn, hc, rfl⟩ | ⟨hd, rfl⟩⟩
  · exact ⟨hwf.erase fun x hx => hwf.find?_below (fun hdir => hd (Option.some.inj (he.symm.trans hdir))) hx, hgone hn⟩
  · exact ⟨(hwf.eraseBelow top).erase fun x hx => (hwf.eraseBelow top).below_of_children hc hx, hgone hn⟩
  · exact ⟨hwf.eraseBelow top, hd⟩

theorem Named.lstat_directory (h : Named fs p dir name) (hd : fs.find? (name :: dir) = some .directory) :
    fs.lstat p = .ok (name :: dir, .directory) := by
  unfold lstat
  rw [h.slot]
  cases hs : Path.endsWithSlash p with
  | false => simp only [bind, Except.bind, hd]
  | true => exact (h.reaches hd).stat h.nonempty h.short

/-- The removal of a directory, whether it succeeds or not, changes nothing outside of it. -/
theorem removeTree_frame (h : Named fs p dir name) (hd : fs.find? (name :: dir) = some .directory) :
    Frame fs (runOn fs (removeTree p)).2 (fun x => x = name :: dir ∨ isBelow (name :: dir) x = true) := by
  have hbelow : Frame fs (fs.eraseBelow (name :: dir)) (fun x => x = name :: dir ∨ isBelow (name :: dir) x = true) :=
    (Frame.eraseBelow fs (name :: dir)).mono fun x hx => .inr hx
  unfold runOn
  rw [removeTree_of_directory (h.lstat_directory hd)]
  cases hr : removeDir p (fs.eraseBelow (name :: dir)) with
  | ok a fs' =>
    obtain ⟨dir', name', hn', -, -, rfl⟩ := removeDir_eq_ok hr
    obtain ⟨rfl, rfl⟩ := (hn'.keepsDirs (Keeps.eraseBelow fs (name :: dir)).dirs).unique h
    exact hbelow.trans ((Frame.erase _ (List.cons_ne_nil _ _)).mono fun x hx => .inl hx)
  | error e fs' => cases e <;> exact hbelow

/-- A directory whose removal fails is empty all the same. -/
theorem removeTree_eq_error {e : OsError} (h : removeTree p fs = .error e fs')
    (hd : fs'.stat p = .ok (loc, .directory)) {x : Location} (hx : isBelow loc x = true) : fs'.find? x = none := by
  -- a removal that changes nothing does not fail where the path stands for a directory
  have hsame : ∀ {found}, fs' = fs → fs.lstat p = .ok found → found.2 ≠ .directory → False := by
    rintro ⟨place, entry⟩ rfl hl hne
    rcases lstat_of_stat hd hl with hf | ⟨dir, name, target, hn, hslash, he, hf⟩
    · cases hf
      exact hne rfl
    · cases hf
      rw [removeTree_of_link hl, removeFile_of_named hn, he] at h
      simp [hslash] at h
  cases hl : fs.lstat p with
  | error e' =>
    unfold removeTree at h
    simp only [bind, EStateM.bind, inspect, hl] at h
    cases h
    obtain ⟨found, hfound⟩ := exists_lstat_of_stat hd
    rw [hl] at hfound
    cases hfound
  | ok found =>
    obtain ⟨top, entry⟩ := found
    cases entry with
    | link target =>
      have hf := h
      rw [removeTree_of_link hl] at hf
      exact (hsame (removeFile_eq_error hf) hl (by simp)).elim
    | directory =>
      have hfs : fs' = fs.eraseBelow top := by
        rw [removeTree_of_directory hl] at h
        split at h <;> cases h
        rfl
      subst hfs
      have hr := (stat_eq_directory_iff.1 hd).2.2.keepsDirs (Keeps.eraseBelow fs top).dirs
      obtain rfl : loc = top := hr.unique (reaches_of_lstat hl)
      rw [find?_eraseBelow, if_pos hx]
    | file content executable =>
      have hf := h
      unfold removeTree at hf
      simp only [bind, EStateM.bind, inspect, hl] at hf
      cases hf
      exact (hsame rfl hl (by simp)).elim

end

end ThriftModules.FileSystem
