import Mathlib.Tactic.SplitIfs
import ThriftModules.CommandLine.Arguments
import ThriftModules.Proofs.Chain
import ThriftModules.Proofs.FileSystem.OsText

/-!
# Values that a command line stores

* `DashFree` : a text that cannot be taken for an option;
* `Reading.Checked` : all values stored so far have been checked; every step of a reading keeps it so
  (`Reading.Checked.readAll`);
* `Arguments.IsDashFree`, `isDashFree_of_parse` : no value of an accepted command line starts with a dash, whichever way it
  was given.
-/

namespace ThriftModules.CommandLine

set_option autoImplicit false

def DashFree (t : Text) : Prop := t.head? ≠ some '-'

instance (t : Text) : Decidable (DashFree t) := inferInstanceAs (Decidable (t.head? ≠ some '-'))

theorem DashFree.ofText {t : Text} (h : DashFree t) : DashFree (OsText.ofText t) :=
  fun hdash => h (OsText.head?_ofText (by decide) hdash)

theorem acceptable_iff {value : Text} : Reading.acceptable value = true ↔ DashFree value := bne_iff_ne

/-! ## Readings -/

namespace Reading

variable {r r' : Reading} {option : ValueOption}

/-- Every value that has been stored was checked first. -/
def Checked (r : Reading) : Prop := ∀ stored ∈ r.values, DashFree stored.2

theorem checked_start : start.Checked := fun _ h => nomatch h

theorem Checked.store {value : Text} (h : r.Checked) (hs : r.store option value = .ok r') : r'.Checked := by
  unfold Reading.store at hs
  split_ifs at hs with hrepeated hvalue
  cases hs
  intro stored hmem
  rcases List.mem_append.1 hmem with hmem | hmem
  · exact h stored hmem
  · rw [List.mem_singleton.1 hmem]
    exact acceptable_iff.1 hvalue

theorem Checked.settle (h : r.Checked) (hs : r.settle = .ok r') : r'.Checked := by
  unfold Reading.settle at hs
  split at hs
  · cases hs
    exact h
  · cases hs
  · next option value =>
    have hnone : Checked { r with pending := none } := h
    exact hnone.store hs

theorem Checked.attach {value : Text} (h : r.Checked) (hs : r.attach option value = .ok r') : r'.Checked := by
  obtain ⟨settled, h₁, h₂⟩ := Chain.bind_eq_ok.1 hs
  exact (h.settle h₁).store h₂

theorem Checked.await (h : r.Checked) (hs : r.await option = .ok r') : r'.Checked := by
  obtain ⟨settled, h₁, h₂⟩ := Chain.bind_eq_ok.1 hs
  cases h₂
  have hsettled := h.settle h₁
  exact hsettled

theorem Checked.raise {switch : Switch} (h : r.Checked) (hs : r.raise switch = .ok r') : r'.Checked := by
  obtain ⟨settled, h₁, h₂⟩ := Chain.bind_eq_ok.1 hs
  cases switch with
  | merge =>
    simp only at h₂
    split_ifs at h₂
    cases h₂
    have hsettled := h.settle h₁
    exact hsettled
  | help => cases h₂
  | version => cases h₂

theorem Checked.readShort {cluster : Text} (h : r.Checked) (hs : r.readShort cluster = .ok r') : r'.Checked := by
  induction cluster generalizing r with
  | nil =>
    cases hs
    exact h
  | cons c rest ih =>
    unfold Reading.readShort at hs
    split at hs
    · cases hs
    · obtain ⟨raised, h₁, h₂⟩ := Chain.bind_eq_ok.1 hs
      exact ih (h.raise h₁) h₂
    · split_ifs at hs
      · exact h.await hs
      · exact h.attach hs

theorem Checked.readLong {argument : Text} (h : r.Checked) (hs : r.readLong argument = .ok r') : r'.Checked := by
  unfold Reading.readLong at hs
  dsimp only at hs
  split at hs
  · cases hs
  · exact h.await hs
  · exact h.attach hs
  · exact h.raise hs
  · cases hs

theorem Checked.readAll {args : List Text} (h : r.Checked) (hs : r.readAll args = .ok r') : r'.Checked := by
  fun_induction Reading.readAll r args with
  | case1 r => exact h.settle hs
  | case2 r => exact h.settle hs
  | case3 r rest => cases hs
  | case4 r name rest hname ih =>
    obtain ⟨read, h₁, h₂⟩ := Chain.bind_eq_ok.1 hs
    exact ih read (h.readLong h₁) h₂
  | case5 r c cs rest hdashes hdash ih =>
    obtain ⟨read, h₁, h₂⟩ := Chain.bind_eq_ok.1 hs
    exact ih read (h.readShort h₁) h₂
  | case6 r argument rest hdashes hlong hshort option hpending ih => exact ih h hs
  | case7 r argument rest hdashes hlong hshort hpending => cases hs

theorem Checked.dashFree {value : Text} (h : r.Checked) (hv : r.value? option = some value) : DashFree value := by
  obtain ⟨before, after, hvalues, -⟩ := List.lookup_eq_some_iff.1 hv
  exact h (option, value) (by rw [hvalues]; simp)

theorem Checked.dashFree_getD {default : Text} (h : r.Checked) (hd : DashFree default) :
    DashFree ((r.value? option).getD default) := by
  cases hv : r.value? option with
  | none => exact hd
  | some value => exact h.dashFree hv

end Reading

/-! ## Arguments -/

/-- No value that a run is given starts with a dash. -/
structure Arguments.IsDashFree (a : Arguments) : Prop where
  project : DashFree a.settings.project
  input : DashFree a.settings.input
  output : DashFree a.settings.output
  thrift : DashFree a.thrift
  javaOptions : DashFree a.settings.javaOptions
  scriptOptions : DashFree a.settings.scriptOptions

section
variable {environment : Option Text} {args : List Text} {a : Arguments}

theorem dashFree_of_thriftOf {r : Reading} {thrift : Path} (h : r.Checked) (ht : thriftOf r environment = .ok thrift) :
    DashFree thrift := by
  unfold thriftOf at ht
  split at ht
  · next hv =>
    cases ht
    exact (h.dashFree hv).ofText
  · split_ifs at ht with hvalue
    cases ht
    exact (acceptable_iff.1 hvalue).ofText
  · cases ht
    decide

/-- Whatever the command line and the environment are, a run is given no value that starts with a dash. -/
theorem isDashFree_of_parse (h : parse environment args = .ok a) : a.IsDashFree := by
  obtain ⟨r, hr, h⟩ := Chain.bind_eq_ok.1 h
  have hchecked := Reading.checked_start.readAll hr
  obtain ⟨thrift, ht, h⟩ := Chain.bind_eq_ok.1 h
  split at h
  · next project input output hproject hinput houtput =>
    cases h
    exact ⟨hchecked.dashFree hproject, (hchecked.dashFree hinput).ofText, (hchecked.dashFree houtput).ofText,
      dashFree_of_thriftOf hchecked ht, (hchecked.dashFree_getD (by decide)).ofText,
      (hchecked.dashFree_getD (by decide)).ofText⟩
  · cases h

end

end ThriftModules.CommandLine
