import ThriftModules.FileSystem.Lookup
import ThriftModules.Proofs.FileSystem.Frame

/-!
# Where names lead

* `Leads` : names that lead from a directory to a location, step by step; `follow` finds exactly that location
  (`follow_eq_ok_iff`);
* `Leads.mono` : names lead there still when entries are added or files change;
* `Thin`, `Leads.thin`, `Leads.thick` : dots in between make no difference;
* `Leads.split`, `Leads.append` : names one part after the other.
-/

namespace ThriftModules.FileSystem

set_option autoImplicit false

/-! ## Names followed step by step -/

structure IsLookedUp (fs : FileSystem) (name : OsText) : Prop where
  notDot : name ≠ ['.']
  notDotDot : name ≠ ['.', '.']
  short : OsText.size name ≤ fs.nameLimit

/-- The names lead from a directory to a location, where at most the given number of links is followed. -/
inductive Leads (fs : FileSystem) : Nat → Location → List OsText → Location → Prop
  | here (links : Nat) (dir : Location) : Leads fs links dir [] dir
  | dot {links : Nat} {dir loc : Location} {rest : List OsText} (hd : fs.find? dir = some .directory)
      (h : Leads fs links dir rest loc) : Leads fs links dir (['.'] :: rest) loc
  | dotDot {links : Nat} {dir loc : Location} {rest : List OsText} (hd : fs.find? dir = some .directory)
      (h : Leads fs links dir.tail rest loc) : Leads fs links dir (['.', '.'] :: rest) loc
  | link {links : Nat} {dir loc : Location} {name : OsText} {target : Path} {rest : List OsText}
      (hd : fs.find? dir = some .directory) (hn : IsLookedUp fs name)
      (he : fs.find? (name :: dir) = some (.link target))
      (h : Leads fs links (startOf dir target) (Path.steps target ++ rest) loc) :
      Leads fs (links + 1) dir (name :: rest) loc
  | into {links : Nat} {dir loc : Location} {name : OsText} {entry : Entry} {rest : List OsText}
      (hd : fs.find? dir = some .directory) (hn : IsLookedUp fs name) (he : fs.find? (name :: dir) = some entry)
      (hl : ∀ target, entry ≠ .link target) (h : Leads fs links (name :: dir) rest loc) :
      Leads fs links dir (name :: rest) loc

section
variable {fs fs' : FileSystem} {links : Nat} {dir loc : Location} {names : List OsText}

theorem follow_nil (fs : FileSystem) (links : Nat) (dir : Location) : follow fs links dir [] = .ok dir := by
  cases links <;> rfl

theorem follow_cons (fs : FileSystem) (links : Nat) (dir : Location) (name : OsText) (rest : List OsText) :
    follow fs links dir (name :: rest) =
      if fs.find? dir ≠ some .directory then .error .notDirectory
      else if name = ['.'] then follow fs links dir rest
      else if name = ['.', '.'] then follow fs links dir.tail rest
      else if OsText.size name > fs.nameLimit then .error .nameTooLong
      else match fs.find? (name :: dir) with
        | none => .error .notFound
        | some (.link target) =>
          match links with
          | 0 => .error .tooManyLinks
          | links + 1 => follow fs links (startOf dir target) (Path.steps target ++ rest)
        | some _ => follow fs links (name :: dir) rest := by
  cases links <;> rfl

theorem Leads.follow_eq (h : Leads fs links dir names loc) : follow fs links dir names = .ok loc := by
  induction h with
  | here links dir => exact follow_nil fs links dir
  | dot hd _ ih => simpa [follow_cons, hd] using ih
  | dotDot hd _ ih => simpa [follow_cons, hd] using ih
  | link hd hn he _ ih =>
    simpa [follow_cons, hd, hn.notDot, hn.notDotDot, Nat.not_lt.2 hn.short, he] using ih
  | @into _ _ _ _ entry _ hd hn he hl _ ih =>
    cases entry with
    | link target => exact absurd rfl (hl target)
    | directory => simpa [follow_cons, hd, hn.notDot, hn.notDotDot, Nat.not_lt.2 hn.short, he] using ih
    | file => simpa [follow_cons, hd, hn.notDot, hn.notDotDot, Nat.not_lt.2 hn.short, he] using ih

theorem leads_of_followUntilLink {atLink : Location → Path → List OsText → Except OsError Location}
    (hat : ∀ {dir name target rest}, fs.find? dir = some .directory → IsLookedUp fs name →
      fs.find? (name :: dir) = some (.link target) → atLink dir target rest = .ok loc →
      Leads fs links dir (name :: rest) loc)
    (h : followUntilLink fs atLink dir names = .ok loc) : Leads fs links dir names loc := by
  induction names generalizing dir with
  | nil =>
    cases h
    exact .here links _
  | cons name rest ih =>
    unfold followUntilLink at h
    split_ifs at h with hd hdot hdotDot hlong
    · exact hdot ▸ .dot (not_not.1 hd) (ih h)
    · exact hdotDot ▸ .dotDot (not_not.1 hd) (ih h)
    · split at h
      · cases h
      · next target he => exact hat (not_not.1 hd) ⟨hdot, hdotDot, Nat.not_lt.1 hlong⟩ he h
      · next entry hl he => exact .into (not_not.1 hd) ⟨hdot, hdotDot, Nat.not_lt.1 hlong⟩ he hl (ih h)

theorem follow_eq_ok_iff : follow fs links dir names = .ok loc ↔ Leads fs links dir names loc := by
  refine ⟨fun h => ?_, Leads.follow_eq⟩
  induction links generalizing dir names with
  | zero => exact leads_of_followUntilLink (fun _ _ _ h => by cases h) h
  | succ links ih => exact leads_of_followUntilLink (fun hd hn he h => .link hd hn he (ih h)) h

theorem Leads.unique {loc' : Location} (h : Leads fs links dir names loc) (h' : Leads fs links dir names loc') :
    loc = loc' := by
  have := h.follow_eq.symm.trans h'.follow_eq
  cases this
  rfl

/-! ## Entries that matter -/

theorem Leads.start (h : Leads fs links dir names loc) : dir = loc ∧ names = [] ∨ fs.find? dir = some .directory := by
  cases h with
  | here => exact .inl ⟨rfl, rfl⟩
  | dot hd => exact .inr hd
  | dotDot hd => exact .inr hd
  | link hd => exact .inr hd
  | into hd => exact .inr hd

/-- The names lead on as long as the directories and links are kept, and the entry at the end. -/
theorem Leads.mono (h : Leads fs links dir names loc) (hlimit : fs'.nameLimit = fs.nameLimit)
    (hkeep : ∀ x entry, fs.find? x = some entry → (x = loc ∨ ∀ c b, entry ≠ .file c b) → fs'.find? x = some entry) :
    Leads fs' links dir names loc := by
  have hname : ∀ {name}, IsLookedUp fs name → IsLookedUp fs' name := fun hn =>
    ⟨hn.notDot, hn.notDotDot, hlimit ▸ hn.short⟩
  have hdir : ∀ {x}, fs.find? x = some .directory → fs'.find? x = some .directory := fun hx =>
    hkeep _ _ hx (.inr (by simp))
  induction h with
  | here links dir => exact .here links dir
  | dot hd _ ih => exact .dot (hdir hd) (ih hkeep)
  | dotDot hd _ ih => exact .dotDot (hdir hd) (ih hkeep)
  | link hd hn he _ ih => exact .link (hdir hd) (hname hn) (hkeep _ _ he (.inr (by simp))) (ih hkeep)
  | into hd hn he hl h ih =>
    refine .into (hdir hd) (hname hn) (hkeep _ _ he ?_) hl (ih hkeep)
    rcases h.start with ⟨rfl, -⟩ | hd'
    · exact .inl rfl
    · rw [he] at hd'
      cases hd'
      exact .inr (by simp)

theorem Leads.keeps (h : Leads fs links dir names loc) (hk : Keeps fs fs') : Leads fs' links dir names loc :=
  h.mono hk.nameLimit fun x entry hx _ => hk.find? x entry hx

theorem Leads.keepsDirs (h : Leads fs links dir names loc) (hk : KeepsDirs fs fs')
    (hloc : fs.find? loc = some .directory) : Leads fs' links dir names loc := by
  refine h.mono hk.nameLimit fun x entry hx he => hk.find? x entry hx ?_
  rcases he with rfl | he
  · rw [hloc] at hx
    cases hx
    simp
  · exact he

/-! ## Dots -/

/-- The second list is the first one without some of its dots. -/
inductive Thin : List OsText → List OsText → Prop
  | nil : Thin [] []
  | drop {a b : List OsText} : Thin a b → Thin (['.'] :: a) b
  | keep {a b : List OsText} (name : OsText) : Thin a b → Thin (name :: a) (name :: b)

theorem Thin.refl (a : List OsText) : Thin a a := by
  induction a with
  | nil => exact .nil
  | cons name a ih => exact .keep name ih

theorem Thin.append_left (pre : List OsText) {a b : List OsText} (h : Thin a b) : Thin (pre ++ a) (pre ++ b) := by
  induction pre with
  | nil => exact h
  | cons name pre ih => exact .keep name ih

theorem Thin.filter (a : List OsText) : Thin a (a.filter (· ≠ ['.'])) := by
  induction a with
  | nil => exact .nil
  | cons name a ih =>
    by_cases hn : name = ['.']
    · subst hn
      exact .drop ih
    · rw [List.filter_cons_of_pos (by simpa using hn)]
      exact .keep name ih

theorem Leads.thin {a b : List OsText} (h : Leads fs links dir a loc) (ht : Thin a b) : Leads fs links dir b loc := by
  induction h generalizing b with
  | here links dir =>
    cases ht
    exact .here links dir
  | dot hd _ ih =>
    cases ht with
    | drop ht => exact ih ht
    | keep _ ht => exact .dot hd (ih ht)
  | dotDot hd _ ih =>
    cases ht with
    | keep _ ht => exact .dotDot hd (ih ht)
  | link hd hn he _ ih =>
    cases ht with
    | drop => exact absurd rfl hn.notDot
    | keep _ ht => exact .link hd hn he (ih (ht.append_left _))
  | into hd hn he hl _ ih =>
    cases ht with
    | drop => exact absurd rfl hn.notDot
    | keep _ ht => exact .into hd hn he hl (ih ht)

theorem Leads.start_directory (h : Leads fs links dir names loc) (hloc : fs.find? loc = some .directory) :
    fs.find? dir = some .directory := by
  rcases h.start with ⟨rfl, -⟩ | hd
  · exact hloc
  · exact hd

theorem Leads.thick {a b : List OsText} (h : Leads fs links dir b loc) (hloc : fs.find? loc = some .directory)
    (ht : Thin a b) : Leads fs links dir a loc := by
  induction h generalizing a with
  | here links dir =>
    generalize hb : ([] : List OsText) = b at ht
    induction ht with
    | nil => exact .here links dir
    | drop _ ih => exact .dot hloc (ih hb)
    | keep => cases hb
  | @dot links dir loc rest hd h ih =>
    generalize hb : ['.'] :: rest = b at ht
    induction ht with
    | nil => cases hb
    | drop _ iht => exact .dot hd (iht hb)
    | keep name ht =>
      cases hb
      exact .dot hd (ih hloc ht)
  | @dotDot links dir loc rest hd h ih =>
    generalize hb : ['.', '.'] :: rest = b at ht
    induction ht with
    | nil => cases hb
    | drop _ iht => exact .dot hd (iht hb)
    | keep name ht =>
      cases hb
      exact .dotDot hd (ih hloc ht)
  | @link links dir loc name target rest hd hn he h ih =>
    generalize hb : name :: rest = b at ht
    induction ht with
    | nil => cases hb
    | drop _ iht => exact .dot hd (iht hb)
    | keep name ht =>
      cases hb
      exact .link hd hn he (ih hloc (ht.append_left _))
  | @into links dir loc name entry rest hd hn he hl h ih =>
    generalize hb : name :: rest = b at ht
    induction ht with
    | nil => cases hb
    | drop _ iht => exact .dot hd (iht hb)
    | keep name ht =>
      cases hb
      exact .into hd hn he hl (ih hloc ht)

/-! ## One part after the other -/

theorem Leads.split {a b : List OsText} (h : Leads fs links dir (a ++ b) loc) :
    ∃ mid links', links' ≤ links ∧ Leads fs links dir a mid ∧ Leads fs links' mid b loc := by
  generalize hab : a ++ b = names at h
  induction h generalizing a b with
  | here links dir =>
    obtain ⟨rfl, rfl⟩ := List.append_eq_nil_iff.1 hab
    exact ⟨dir, links, Nat.le_refl links, .here links dir, .here links dir⟩
  | @dot links dir loc rest hd h ih =>
    cases a with
    | nil => exact ⟨dir, links, Nat.le_refl links, .here links dir, by rw [← List.nil_append b, hab]; exact .dot hd h⟩
    | cons name a =>
      obtain ⟨rfl, rfl⟩ := List.cons.inj hab
      obtain ⟨mid, links', hle, h₁, h₂⟩ := ih rfl
      exact ⟨mid, links', hle, .dot hd h₁, h₂⟩
  | @dotDot links dir loc rest hd h ih =>
    cases a with
    | nil =>
      exact ⟨dir, links, Nat.le_refl links, .here links dir, by rw [← List.nil_append b, hab]; exact .dotDot hd h⟩
    | cons name a =>
      obtain ⟨rfl, rfl⟩ := List.cons.inj hab
      obtain ⟨mid, links', hle, h₁, h₂⟩ := ih rfl
      exact ⟨mid, links', hle, .dotDot hd h₁, h₂⟩
  | @link links dir loc name target rest hd hn he h ih =>
    cases a with
    | nil =>
      exact ⟨dir, links + 1, Nat.le_refl _, .here _ dir, by rw [← List.nil_append b, hab]; exact .link hd hn he h⟩
    | cons name a =>
      obtain ⟨rfl, rfl⟩ := List.cons.inj hab
      obtain ⟨mid, links', hle, h₁, h₂⟩ := ih (a := Path.steps target ++ a) (b := b) (List.append_assoc _ _ _)
      exact ⟨mid, links', by omega, .link hd hn he h₁, h₂⟩
  | @into links dir loc name entry rest hd hn he hl h ih =>
    cases a with
    | nil =>
      exact ⟨dir, links, Nat.le_refl links, .here links dir, by
        rw [← List.nil_append b, hab]; exact .into hd hn he hl h⟩
    | cons name a =>
      obtain ⟨rfl, rfl⟩ := List.cons.inj hab
      obtain ⟨mid, links', hle, h₁, h₂⟩ := ih rfl
      exact ⟨mid, links', hle, .into hd hn he hl h₁, h₂⟩

/-- Names that lead anywhere lead through an entry of the last name. -/
theorem Leads.exists_last {a : List OsText} {mid : Location} {name : OsText} (h : Leads fs links dir (a ++ [name]) loc)
    (ha : Leads fs links dir a mid) (hdot : name ≠ ['.']) (hdotDot : name ≠ ['.', '.']) :
    fs.find? (name :: mid) ≠ none := by
  obtain ⟨mid', links', -, h₁, h₂⟩ := h.split
  obtain rfl : mid' = mid := h₁.unique ha
  cases h₂ with
  | dot => exact absurd rfl hdot
  | dotDot => exact absurd rfl hdotDot
  | link _ _ he => simp [he]
  | into _ _ he => simp [he]

theorem Leads.links_le {links' : Nat} (h : Leads fs links dir names loc) (hle : links ≤ links') :
    Leads fs links' dir names loc := by
  induction h generalizing links' with
  | here links dir => exact .here links' dir
  | dot hd _ ih => exact .dot hd (ih hle)
  | dotDot hd _ ih => exact .dotDot hd (ih hle)
  | link hd hn he _ ih =>
    cases links' with
    | zero => omega
    | succ links' => exact .link hd hn he (ih (by omega))
  | into hd hn he hl _ ih => exact .into hd hn he hl (ih hle)

theorem Leads.append {mid : Location} {a b : List OsText} (h : Leads fs links dir a mid) (h' : Leads fs 0 mid b loc) :
    Leads fs links dir (a ++ b) loc := by
  induction h with
  | here links dir => exact h'.links_le (Nat.zero_le links)
  | dot hd _ ih => exact .dot hd (ih h')
  | dotDot hd _ ih => exact .dotDot hd (ih h')
  | link hd hn he _ ih =>
    have ih := ih h'
    rw [List.append_assoc] at ih
    exact .link hd hn he ih
  | into hd hn he hl _ ih => exact .into hd hn he hl (ih h')

end

end ThriftModules.FileSystem
