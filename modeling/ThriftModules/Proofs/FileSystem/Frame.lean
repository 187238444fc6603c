import ThriftModules.FileSystem.Basic
import ThriftModules.Proofs.FileSystem.Names

/-!
# What a change leaves alone

* `WellFormed fs` : every entry stands in a directory under a name; `put`, `erase` and `eraseBelow` keep it so;
* `Frame fs fs' W` : every location outside the set `W` holds in `fs'` what it holds in `fs`; `Frame.trans` (union),
  `Frame.mono`, `frame_of_entries`;
* `Keeps fs fs'` : every entry of `fs` is still there in `fs'`; `KeepsDirs fs fs'` : every directory and every link is.
-/

namespace ThriftModules.FileSystem

set_option autoImplicit false

/-! ## Locations -/

theorem isBelow_iff {dir loc : Location} : isBelow dir loc = true ↔ ∃ above, above ≠ [] ∧ loc = above ++ dir := by
  unfold isBelow
  rw [Bool.and_eq_true, List.isSuffixOf_iff_suffix, decide_eq_true_eq]
  constructor
  · rintro ⟨⟨above, rfl⟩, hne⟩
    exact ⟨above, fun e => hne (by rw [e, List.nil_append]), rfl⟩
  · rintro ⟨above, hne, rfl⟩
    refine ⟨List.suffix_append above dir, fun e => hne ?_⟩
    simpa using e

@[simp] theorem isBelow_cons (name : OsText) (dir : Location) : isBelow dir (name :: dir) = true :=
  isBelow_iff.2 ⟨[name], List.cons_ne_nil _ _, rfl⟩

@[simp] theorem isBelow_self (dir : Location) : isBelow dir dir = false := by
  simp [isBelow]

theorem isBelow_trans {a b c : Location} (hab : isBelow a b = true) (hbc : isBelow b c = true) :
    isBelow a c = true := by
  obtain ⟨u, hu, rfl⟩ := isBelow_iff.1 hab
  obtain ⟨v, -, rfl⟩ := isBelow_iff.1 hbc
  exact isBelow_iff.2 ⟨v ++ u, by simp [hu], by rw [List.append_assoc]⟩

/-- Of two directories that a location lies below, one lies below the other. -/
theorem isBelow_total {a b loc : Location} (ha : isBelow a loc = true) (hb : isBelow b loc = true) :
    a = b ∨ isBelow a b = true ∨ isBelow b a = true := by
  unfold isBelow at ha hb ⊢
  rw [Bool.and_eq_true, List.isSuffixOf_iff_suffix] at ha hb
  by_cases hab : a = b
  · exact .inl hab
  · rcases List.suffix_or_suffix_of_suffix ha.1 hb.1 with h | h
    · exact .inr (.inl (by simp [List.isSuffixOf_iff_suffix.2 h, hab]))
    · exact .inr (.inr (by simp [List.isSuffixOf_iff_suffix.2 h, Ne.symm hab]))

theorem length_lt_of_isBelow {dir loc : Location} (h : isBelow dir loc = true) : dir.length < loc.length := by
  obtain ⟨above, hne, rfl⟩ := isBelow_iff.1 h
  have := List.length_pos_iff.2 hne
  rw [List.length_append]
  omega

theorem not_isBelow_of_isBelow {a b : OsText} {dir loc : Location} (hab : a ≠ b) (h : isBelow (a :: dir) loc = true) :
    isBelow (b :: dir) loc = false := by
  rw [Bool.eq_false_iff]
  intro hb
  obtain ⟨u, -, rfl⟩ := isBelow_iff.1 h
  obtain ⟨v, -, e⟩ := isBelow_iff.1 hb
  obtain ⟨-, e⟩ := List.append_inj' e (by simp)
  exact hab (List.cons.inj e).1

/-- What lies in one of two directories side by side is no entry of the other. -/
theorem ne_cons_of_isBelow {a b : OsText} {dir loc : Location} (hab : a ≠ b) (h : isBelow (a :: dir) loc = true)
    (name : OsText) : loc ≠ name :: b :: dir := by
  rintro rfl
  have hb := not_isBelow_of_isBelow hab h
  rw [isBelow_cons] at hb
  cases hb

theorem not_isBelow_cons_cons (a b : OsText) (dir : Location) : ¬isBelow (a :: dir) (b :: dir) = true := by
  intro h
  have hlt := length_lt_of_isBelow h
  simp at hlt

/-- An entry put at a free place and taken away again has changed nothing. -/
theorem erase_put {fs : FileSystem} {loc : Location} {entry : Entry} (h : fs.find? loc = none) :
    (fs.put loc entry).erase loc = fs := by
  have hfree : ∀ e ∈ fs.entries, e.1 ≠ loc := by
    rintro e he rfl
    cases hl : e.1 with
    | nil =>
      rw [hl] at h
      cases h
    | cons n d =>
      rw [hl] at h
      have hs : (fs.entries.lookup (n :: d)).isSome = true := List.lookup_isSome_iff.2 ⟨e, he, by simp [hl]⟩
      rw [show fs.entries.lookup (n :: d) = none from h] at hs
      cases hs
  have hkeep : fs.entries.filter (fun e => !decide (e.1 = loc)) = fs.entries := by
    rw [List.filter_eq_self]
    exact fun e he => by simpa using hfree e he
  unfold put erase
  simp [hkeep]

theorem put_put (fs : FileSystem) (loc : Location) (first second : Entry) :
    (fs.put loc first).put loc second = fs.put loc second := by
  simp [put, erase]

/-! ## Well-formed file systems -/

/-- Every entry stands in a directory, under a name that is not too long. -/
structure WellFormed (fs : FileSystem) : Prop where
  parent : ∀ name dir, fs.find? (name :: dir) ≠ none → fs.find? dir = some .directory
  name : ∀ name dir, fs.find? (name :: dir) ≠ none → Path.IsName name
  short : ∀ name dir, fs.find? (name :: dir) ≠ none → OsText.size name ≤ fs.nameLimit

section
variable {fs fs' : FileSystem}

@[simp] theorem find?_nil (fs : FileSystem) : fs.find? [] = some .directory := rfl

theorem WellFormed.above (h : fs.WellFormed) {dir loc : Location} (hb : isBelow dir loc = true)
    (hl : fs.find? loc ≠ none) : fs.find? dir = some .directory := by
  obtain ⟨above, hne, rfl⟩ := isBelow_iff.1 hb
  clear hb
  induction above with
  | nil => exact absurd rfl hne
  | cons name above ih =>
    have hp := h.parent name (above ++ dir) hl
    by_cases ha : above = []
    · rw [ha] at hp
      exact hp
    · exact ih ha (by rw [hp]; simp)

theorem WellFormed.find?_below (h : fs.WellFormed) {dir loc : Location} (hd : fs.find? dir ≠ some .directory)
    (hb : isBelow dir loc = true) : fs.find? loc = none := by
  by_contra hl
  exact hd (h.above hb hl)

/-- Whether what is at a location stands in a directory, under a name that is not too long. -/
def StandsInDirectory (fs : FileSystem) (loc : Location) : Prop :=
  ∀ name ∈ loc.head?, fs.find? loc.tail = some .directory ∧ Path.IsName name ∧ OsText.size name ≤ fs.nameLimit

instance (fs : FileSystem) (loc : Location) : Decidable (fs.StandsInDirectory loc) :=
  inferInstanceAs (Decidable (∀ name ∈ loc.head?, _ ∧ _ ∧ _))

theorem wellFormed_of_entries (h : ∀ e ∈ fs.entries, fs.StandsInDirectory e.1) : fs.WellFormed := by
  have hstands : ∀ name dir, fs.find? (name :: dir) ≠ none →
      fs.find? dir = some .directory ∧ Path.IsName name ∧ OsText.size name ≤ fs.nameLimit := by
    intro name dir hf
    obtain ⟨e, he, hloc⟩ := List.lookup_isSome_iff.1 (Option.isSome_iff_ne_none.2 hf)
    have hs := h e he
    rw [← eq_of_beq hloc] at hs
    exact hs name rfl
  exact ⟨fun n d hf => (hstands n d hf).1, fun n d hf => (hstands n d hf).2.1, fun n d hf => (hstands n d hf).2.2⟩

theorem mem_children {name : OsText} {dir : Location} : name ∈ fs.children dir ↔ fs.find? (name :: dir) ≠ none := by
  have hname : ∀ loc, nameIn? dir loc = some name ↔ loc = name :: dir := by
    intro loc
    cases loc with
    | nil => simp [nameIn?]
    | cons n d =>
      unfold nameIn?
      split <;> grind
  unfold children
  rw [← NameSet.mem_def, NameSet.mem_ofList, List.mem_filterMap, ← Option.isSome_iff_ne_none]
  simp only [hname, find?, List.lookup_isSome_iff, beq_iff_eq]
  exact exists_congr fun e => and_congr_right fun _ => eq_comm

theorem children_eq_nil {dir : Location} (h : ∀ name, fs.find? (name :: dir) = none) : fs.children dir = [] := by
  rw [List.eq_nil_iff_forall_not_mem]
  exact fun name hname => mem_children.1 hname (h name)

theorem WellFormed.below_of_children (h : fs.WellFormed) {dir loc : Location} (hc : fs.children dir = [])
    (hb : isBelow dir loc = true) : fs.find? loc = none := by
  obtain ⟨above, hne, rfl⟩ := isBelow_iff.1 hb
  obtain ⟨init, name, rfl⟩ : ∃ init name, above = init ++ [name] :=
    ⟨above.dropLast, above.getLast hne, (List.dropLast_concat_getLast hne).symm⟩
  have hname : fs.find? (name :: dir) = none := by
    by_contra hf
    have hm := mem_children.2 hf
    rw [hc] at hm
    cases hm
  rw [List.append_assoc]
  cases init with
  | nil => exact hname
  | cons n init =>
    have hd : fs.find? (name :: dir) ≠ some .directory := by
      rw [hname]
      simp
    exact h.find?_below hd (isBelow_iff.2 ⟨n :: init, by simp, by simp⟩)

theorem WellFormed.put (h : fs.WellFormed) {name : OsText} {dir : Location} {entry : Entry} (hn : Path.IsName name)
    (hs : OsText.size name ≤ fs.nameLimit) (hd : fs.find? dir = some .directory)
    (hk : fs.find? (name :: dir) ≠ some .directory ∨ entry = .directory) :
    (fs.put (name :: dir) entry).WellFormed := by
  constructor
  · intro n d hnd
    have hd' : fs.find? d = some .directory := by
      rw [find?_put (List.cons_ne_nil name dir)] at hnd
      split at hnd
      · next e =>
        rw [(List.cons.inj e).2]
        exact hd
      · exact h.parent n d hnd
    rw [find?_put (List.cons_ne_nil name dir)]
    split
    · next e =>
      rcases hk with hk | rfl
      · exact absurd (e ▸ hd') hk
      · rfl
    · exact hd'
  · intro n d hnd
    rw [find?_put (List.cons_ne_nil name dir)] at hnd
    split at hnd
    · next e =>
      rw [(List.cons.inj e).1]
      exact hn
    · exact h.name n d hnd
  · intro n d hnd
    rw [find?_put (List.cons_ne_nil name dir)] at hnd
    split at hnd
    · next e =>
      rw [(List.cons.inj e).1]
      exact hs
    · exact h.short n d hnd

theorem WellFormed.erase (h : fs.WellFormed) {name : OsText} {dir : Location}
    (hc : ∀ x, isBelow (name :: dir) x = true → fs.find? x = none) : (fs.erase (name :: dir)).WellFormed := by
  have hsub : ∀ x, (fs.erase (name :: dir)).find? x ≠ none → x ≠ name :: dir ∧ fs.find? x ≠ none := by
    intro x hx
    rw [find?_erase (List.cons_ne_nil name dir)] at hx
    split at hx
    · exact absurd rfl hx
    · exact ⟨‹_›, hx⟩
  constructor
  · intro n d hnd
    obtain ⟨-, hl⟩ := hsub _ hnd
    have hd := h.parent n d hl
    rw [find?_erase (List.cons_ne_nil name dir), if_neg, hd]
    rintro rfl
    exact hl (hc _ (isBelow_cons n _))
  · intro n d hnd
    exact h.name n d (hsub _ hnd).2
  · intro n d hnd
    exact h.short n d (hsub _ hnd).2

theorem WellFormed.congr (h : fs.WellFormed) (hf : ∀ x, fs'.find? x = fs.find? x)
    (hl : fs'.nameLimit = fs.nameLimit) : fs'.WellFormed := by
  constructor
  · intro n d hnd
    rw [hf] at hnd ⊢
    exact h.parent n d hnd
  · intro n d hnd
    rw [hf] at hnd
    exact h.name n d hnd
  · intro n d hnd
    rw [hf] at hnd
    rw [hl]
    exact h.short n d hnd

theorem WellFormed.eraseBelow (h : fs.WellFormed) (dir : Location) : (fs.eraseBelow dir).WellFormed := by
  have hsub : ∀ x, (fs.eraseBelow dir).find? x ≠ none → isBelow dir x = false ∧ fs.find? x ≠ none := by
    intro x hx
    rw [find?_eraseBelow] at hx
    split at hx
    · exact absurd rfl hx
    · exact ⟨by simpa using ‹¬isBelow dir x = true›, hx⟩
  constructor
  · intro n d hnd
    obtain ⟨hb, hl⟩ := hsub _ hnd
    rw [find?_eraseBelow, if_neg, h.parent n d hl]
    intro hd
    rw [isBelow_trans hd (isBelow_cons n d)] at hb
    cases hb
  · intro n d hnd
    exact h.name n d (hsub _ hnd).2
  · intro n d hnd
    exact h.short n d (hsub _ hnd).2

end

/-! ## Frames -/

/-- What lies outside `W` is in `fs'` as it is in `fs`. -/
structure Frame (fs fs' : FileSystem) (W : Location → Prop) : Prop where
  find? : ∀ x, ¬W x → fs'.find? x = fs.find? x
  workDir : fs'.workDir = fs.workDir
  nameLimit : fs'.nameLimit = fs.nameLimit

section
variable {fs fs' fs'' : FileSystem} {W W' : Location → Prop}

theorem Frame.refl (fs : FileSystem) (W : Location → Prop) : Frame fs fs W := ⟨fun _ _ => rfl, rfl, rfl⟩

theorem Frame.mono (h : Frame fs fs' W) (hW : ∀ x, W x → W' x) : Frame fs fs' W' :=
  ⟨fun x hx => h.find? x fun hw => hx (hW x hw), h.workDir, h.nameLimit⟩

theorem Frame.trans (h : Frame fs fs' W) (h' : Frame fs' fs'' W) : Frame fs fs'' W :=
  ⟨fun x hx => (h'.find? x hx).trans (h.find? x hx), h'.workDir.trans h.workDir, h'.nameLimit.trans h.nameLimit⟩

theorem Frame.symm (h : Frame fs fs' W) : Frame fs' fs W :=
  ⟨fun x hx => (h.find? x hx).symm, h.workDir.symm, h.nameLimit.symm⟩

theorem Frame.put (fs : FileSystem) {loc : Location} (hl : loc ≠ []) (entry : Entry) :
    Frame fs (fs.put loc entry) (· = loc) :=
  ⟨fun x hx => by rw [find?_put hl, if_neg hx], rfl, rfl⟩

theorem Frame.erase (fs : FileSystem) {loc : Location} (hl : loc ≠ []) : Frame fs (fs.erase loc) (· = loc) :=
  ⟨fun x hx => by rw [find?_erase hl, if_neg hx], rfl, rfl⟩

theorem Frame.eraseBelow (fs : FileSystem) (dir : Location) :
    Frame fs (fs.eraseBelow dir) (fun x => isBelow dir x = true) :=
  ⟨fun x hx => by rw [find?_eraseBelow, if_neg hx], rfl, rfl⟩

/-- It is enough to look at the locations that one of the file systems lists. -/
theorem frame_of_entries (hdir : fs'.workDir = fs.workDir) (hlimit : fs'.nameLimit = fs.nameLimit)
    (h : ∀ e ∈ fs.entries ++ fs'.entries, ¬W e.1 → fs'.find? e.1 = fs.find? e.1) : Frame fs fs' W := by
  refine ⟨fun x hx => ?_, hdir, hlimit⟩
  have hlisted : ∀ {g : FileSystem}, g.find? x ≠ none → x = [] ∨ ∃ e ∈ g.entries, e.1 = x := by
    intro g hf
    cases x with
    | nil => exact .inl rfl
    | cons n d =>
      obtain ⟨e, he, hkey⟩ := List.lookup_isSome_iff.1 (Option.isSome_iff_ne_none.2 hf)
      exact .inr ⟨e, he, (beq_iff_eq.1 hkey).symm⟩
  have hsame : (∃ e ∈ fs.entries ++ fs'.entries, e.1 = x) → fs'.find? x = fs.find? x := by
    rintro ⟨e, he, rfl⟩
    exact h e he hx
  by_cases hf : fs.find? x = none
  · by_cases hf' : fs'.find? x = none
    · rw [hf, hf']
    · rcases hlisted hf' with rfl | ⟨e, he, hk⟩
      · rfl
      · exact hsame ⟨e, List.mem_append_right _ he, hk⟩
  · rcases hlisted hf with rfl | ⟨e, he, hk⟩
    · rfl
    · exact hsame ⟨e, List.mem_append_left _ he, hk⟩

end

/-! ## Entries that stay -/

structure Keeps (fs fs' : FileSystem) : Prop where
  find? : ∀ x entry, fs.find? x = some entry → fs'.find? x = some entry
  workDir : fs'.workDir = fs.workDir
  nameLimit : fs'.nameLimit = fs.nameLimit

structure KeepsDirs (fs fs' : FileSystem) : Prop where
  find? : ∀ x entry, fs.find? x = some entry → (∀ c b, entry ≠ .file c b) → fs'.find? x = some entry
  workDir : fs'.workDir = fs.workDir
  nameLimit : fs'.nameLimit = fs.nameLimit

section
variable {fs fs' fs'' : FileSystem}

theorem Keeps.refl (fs : FileSystem) : Keeps fs fs := ⟨fun _ _ h => h, rfl, rfl⟩

theorem Keeps.trans (h : Keeps fs fs') (h' : Keeps fs' fs'') : Keeps fs fs'' :=
  ⟨fun x entry hx => h'.find? x entry (h.find? x entry hx), h'.workDir.trans h.workDir,
    h'.nameLimit.trans h.nameLimit⟩

theorem Keeps.dirs (h : Keeps fs fs') : KeepsDirs fs fs' :=
  ⟨fun x entry hx _ => h.find? x entry hx, h.workDir, h.nameLimit⟩

theorem KeepsDirs.trans (h : KeepsDirs fs fs') (h' : KeepsDirs fs' fs'') : KeepsDirs fs fs'' :=
  ⟨fun x entry hx he => h'.find? x entry (h.find? x entry hx he) he, h'.workDir.trans h.workDir,
    h'.nameLimit.trans h.nameLimit⟩

theorem Keeps.frame {W : Location → Prop} (h : Keeps fs fs') (hf : Frame fs' fs'' W)
    (hW : ∀ x, W x → fs.find? x = none) : Keeps fs fs'' := by
  refine ⟨fun x entry hx => ?_, hf.workDir.trans h.workDir, hf.nameLimit.trans h.nameLimit⟩
  rw [hf.find? x fun hw => by rw [hW x hw] at hx; cases hx]
  exact h.find? x entry hx

theorem Frame.keeps {W : Location → Prop} (h : Frame fs fs' W) (hW : ∀ x, W x → fs.find? x = none) : Keeps fs fs' :=
  (Keeps.refl fs).frame h hW

theorem Keeps.erase (fs : FileSystem) {loc : Location} (hl : loc ≠ []) : Keeps (fs.erase loc) fs := by
  refine ⟨fun x entry hx => ?_, rfl, rfl⟩
  rw [find?_erase hl] at hx
  split at hx
  · cases hx
  · exact hx

theorem Keeps.eraseBelow (fs : FileSystem) (dir : Location) : Keeps (fs.eraseBelow dir) fs := by
  refine ⟨fun x entry hx => ?_, rfl, rfl⟩
  rw [find?_eraseBelow] at hx
  split at hx
  · cases hx
  · exact hx

theorem Keeps.put {loc : Location} (hl : fs.find? loc = none) (entry : Entry) : Keeps fs (fs.put loc entry) := by
  have hne : loc ≠ [] := by
    rintro rfl
    cases hl
  exact (Frame.put fs hne entry).keeps fun x hx => by rw [hx, hl]

end

end ThriftModules.FileSystem
