import ThriftModules.FileSystem.Operations
import ThriftModules.Proofs.FileSystem.Leads

/-!
# What a lookup reads

* `visited` : the locations that a lookup reads on its way;
* `follow_congr`, `stat_congr` : a lookup has the same outcome wherever these hold the same, whether it succeeds or not;
* `Avoids` : a path whose lookup reads nothing in a set, so that no change there matters (`Avoids.stat_eq`).
-/

namespace ThriftModules.FileSystem

set_option autoImplicit false

/-- The locations that are read when `names` are followed from a directory, where `atLink` goes on at a link. -/
def visitedUntilLink (fs : FileSystem) (atLink : Location → Path → List OsText → List Location) :
    Location → List OsText → List Location
  | dir, [] => [dir]
  | dir, name :: rest =>
    dir ::
      if fs.find? dir ≠ some .directory then []
      else if name = ['.'] then visitedUntilLink fs atLink dir rest
      else if name = ['.', '.'] then visitedUntilLink fs atLink dir.tail rest
      else if OsText.size name > fs.nameLimit then []
      else match fs.find? (name :: dir) with
        | none => [name :: dir]
        | some (.link target) => (name :: dir) :: atLink dir target rest
        | some _ => visitedUntilLink fs atLink (name :: dir) rest

def visited (fs : FileSystem) : Nat → Location → List OsText → List Location
  | 0 => visitedUntilLink fs fun _ _ _ => []
  | links + 1 =>
    visitedUntilLink fs fun dir target rest => visited fs links (startOf dir target) (Path.steps target ++ rest)

/-- The locations that are read when a path is looked up. -/
def visitedBy (fs : FileSystem) (p : Path) : List Location :=
  fs.visited maxLinks (startOf fs.workDir p) (Path.steps p)

section
variable {fs fs' : FileSystem} {links : Nat} {dir loc : Location} {names : List OsText} {p : Path}

theorem visited_nil (fs : FileSystem) (links : Nat) (dir : Location) : fs.visited links dir [] = [dir] := by
  cases links <;> rfl

theorem visited_cons (fs : FileSystem) (links : Nat) (dir : Location) (name : OsText) (rest : List OsText) :
    fs.visited links dir (name :: rest) =
      dir ::
        if fs.find? dir ≠ some .directory then []
        else if name = ['.'] then fs.visited links dir rest
        else if name = ['.', '.'] then fs.visited links dir.tail rest
        else if OsText.size name > fs.nameLimit then []
        else match fs.find? (name :: dir) with
          | none => [name :: dir]
          | some (.link target) =>
            (name :: dir) :: match links with
              | 0 => []
              | links + 1 => fs.visited links (startOf dir target) (Path.steps target ++ rest)
          | some _ => fs.visited links (name :: dir) rest := by
  cases links <;> rfl

theorem mem_visited_start (fs : FileSystem) (links : Nat) (dir : Location) (names : List OsText) :
    dir ∈ fs.visited links dir names := by
  cases names with
  | nil => simp [visited_nil]
  | cons name rest => simp [visited_cons]

theorem Leads.mem_visited (h : Leads fs links dir names loc) : loc ∈ fs.visited links dir names := by
  induction h with
  | here links dir => exact mem_visited_start fs links dir []
  | dot hd _ ih =>
    rw [visited_cons]
    simpa [hd] using .inr ih
  | dotDot hd _ ih =>
    rw [visited_cons]
    simpa [hd] using .inr ih
  | link hd hn he _ ih =>
    rw [visited_cons]
    simpa [hd, hn.notDot, hn.notDotDot, Nat.not_lt.2 hn.short, he] using .inr (.inr ih)
  | @into _ _ _ _ entry _ hd hn he hl _ ih =>
    rw [visited_cons]
    cases entry with
    | link target => exact absurd rfl (hl target)
    | directory => simpa [hd, hn.notDot, hn.notDotDot, Nat.not_lt.2 hn.short, he] using .inr ih
    | file => simpa [hd, hn.notDot, hn.notDotDot, Nat.not_lt.2 hn.short, he] using .inr ih

theorem followUntilLink_congr {atLink atLink' : Location → Path → List OsText → Except OsError Location}
    {atVisited : Location → Path → List OsText → List Location} (hlimit : fs'.nameLimit = fs.nameLimit)
    (hat : ∀ dir target rest, (∀ x ∈ atVisited dir target rest, fs'.find? x = fs.find? x) →
      atLink' dir target rest = atLink dir target rest)
    (h : ∀ x ∈ visitedUntilLink fs atVisited dir names, fs'.find? x = fs.find? x) :
    followUntilLink fs' atLink' dir names = followUntilLink fs atLink dir names := by
  have hstart : ∀ dir names, dir ∈ visitedUntilLink fs atVisited dir names := by
    intro dir names
    cases names <;> simp [visitedUntilLink]
  induction names generalizing dir with
  | nil => rfl
  | cons name rest ih =>
    have hdir := h dir (hstart dir (name :: rest))
    unfold followUntilLink
    unfold visitedUntilLink at h
    rw [hdir, hlimit]
    split_ifs at h ⊢ with hd hdot hdotDot hlong
    · rfl
    · exact ih fun x hx => h x (List.mem_cons_of_mem dir hx)
    · exact ih fun x hx => h x (List.mem_cons_of_mem dir hx)
    · rfl
    · cases he : fs.find? (name :: dir) with
      | none =>
        rw [he] at h
        rw [h (name :: dir) (by simp), he]
      | some entry =>
        rw [he] at h
        cases entry with
        | link target =>
          rw [h (name :: dir) (by simp), he]
          exact hat _ _ _ fun x hx => h x (List.mem_cons_of_mem dir (List.mem_cons_of_mem _ hx))
        | directory =>
          rw [h (name :: dir) (List.mem_cons_of_mem dir (hstart _ rest)), he]
          exact ih fun x hx => h x (List.mem_cons_of_mem dir hx)
        | file content executable =>
          rw [h (name :: dir) (List.mem_cons_of_mem dir (hstart _ rest)), he]
          exact ih fun x hx => h x (List.mem_cons_of_mem dir hx)

theorem follow_congr (hlimit : fs'.nameLimit = fs.nameLimit)
    (h : ∀ x ∈ fs.visited links dir names, fs'.find? x = fs.find? x) :
    follow fs' links dir names = follow fs links dir names := by
  induction links generalizing dir names with
  | zero => exact followUntilLink_congr hlimit (fun _ _ _ _ => rfl) h
  | succ links ih => exact followUntilLink_congr hlimit (fun _ _ _ hx => ih hx) h

/-! ## Paths that are looked up elsewhere -/

theorem stat_congr (hlimit : fs'.nameLimit = fs.nameLimit) (hdir : fs'.workDir = fs.workDir)
    (h : ∀ x ∈ fs.visitedBy p, fs'.find? x = fs.find? x) : fs'.stat p = fs.stat p := by
  have hlocate : fs'.locate fs'.workDir p = fs.locate fs.workDir p := by
    unfold locate
    rw [hdir, follow_congr hlimit h]
  unfold stat
  rw [hlocate]
  cases hl : fs.locate fs.workDir p with
  | error e => rfl
  | ok loc =>
    have hloc : loc ∈ fs.visitedBy p := by
      unfold locate at hl
      split_ifs at hl
      exact (follow_eq_ok_iff.1 hl).mem_visited
    simp only [bind, Except.bind, h loc hloc]

/-- The lookup of the path reads nothing in `W`. -/
def Avoids (fs : FileSystem) (W : Location → Prop) (p : Path) : Prop := ∀ x ∈ fs.visitedBy p, ¬W x

instance (fs : FileSystem) (W : Location → Prop) [DecidablePred W] (p : Path) : Decidable (Avoids fs W p) :=
  inferInstanceAs (Decidable (∀ x ∈ fs.visitedBy p, ¬W x))

theorem Avoids.stat_eq {W : Location → Prop} (h : Avoids fs W p) (hf : Frame fs fs' W) : fs'.stat p = fs.stat p :=
  stat_congr hf.nameLimit hf.workDir fun x hx => hf.find? x (h x hx)

theorem isFile_congr (h : fs'.stat p = fs.stat p) : fs'.isFile p = fs.isFile p := by
  unfold isFile
  rw [h]

theorem readText_congr (h : fs'.stat p = fs.stat p) : fs'.readText p = fs.readText p := by
  unfold readText readFile
  rw [h]

end

end ThriftModules.FileSystem
