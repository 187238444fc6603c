import ThriftModules.Proofs.CommandLine.Accepted
import ThriftModules.Proofs.Run.Requests

/-!
# The calls of the compiler

* `IsOperand` : a path that is there and starts with no dash; a walk from such a path meets only such paths
  (`isOperand_of_mem_walk`);
* `IsDashFreeRequest` : a request whose values do not start with a dash;
* `Call.read?` : a command line of the compiler read by the dashes alone, which it gets right exactly if the request's
  values have none (`Call.read?_commandOf`);
* `isDashFree_of_mem_requests` : what a run that is given no dashes asks the compiler for;
* `parse_passes_no_option` : no accepted command line passes an option to the compiler.
-/

namespace ThriftModules.CommandLine

set_option autoImplicit false

open Run (Setup Settings Request RunM RunError Journal Compiler requestsFor generate generateIn processAll runFrom visits)
open Idl (SearchPath)
open Output (Tree listFiles)
open Chain (Ends)

/-! ## Paths that are no options -/

/-- The path is there and starts with no dash. -/
structure IsOperand (p : Path) : Prop where
  nonempty : p ≠ []
  dashFree : DashFree p

theorem isOperand_of_isAbsolute {p : Path} (h : Path.isAbsolute p = true) : IsOperand p := by
  have hp : p.head? = some '/' := by simpa [Path.isAbsolute] using h
  refine ⟨?_, ?_⟩
  · rintro rfl
    cases hp
  · unfold DashFree
    rw [hp]
    decide

/-- Whatever is put below a path, it starts as the path does, or at the root. -/
theorem IsOperand.join {base : Path} (h : IsOperand base) (p : Path) : IsOperand (Path.join base p) := by
  have hlead : ∀ t, IsOperand (base ++ t) := fun t => by
    obtain ⟨c, rest, rfl⟩ := List.exists_cons_of_ne_nil h.nonempty
    exact ⟨List.cons_ne_nil c _, h.dashFree⟩
  unfold Path.join
  split_ifs with habsolute
  · exact isOperand_of_isAbsolute habsolute
  · exact hlead p
  · exact hlead ('/' :: p)

section
variable {fs : FileSystem} {root : Path}

theorem isOperand_of_mem_walkBelow {depth : Nat} {dir : Location} {path : Path} {item : FileSystem.WalkItem}
    (h : IsOperand path) (hi : item ∈ fs.walkBelow depth dir path) : IsOperand item.path := by
  induction depth generalizing dir path with
  | zero => cases hi
  | succ depth ih =>
    unfold FileSystem.walkBelow at hi
    obtain ⟨name, -, hi⟩ := List.mem_flatMap.1 hi
    have hhere := h.join name
    dsimp only at hi
    split at hi
    · cases hi
    · rcases List.mem_cons.1 hi with rfl | hi
      · exact hhere
      · exact ih hhere hi
    · rw [List.mem_singleton.1 hi]
      exact hhere

/-- Nothing is walked from the empty path, so that every path of a walk starts as its root does. -/
theorem isOperand_of_mem_walk {items : List FileSystem.WalkItem} {item : FileSystem.WalkItem} (h : DashFree root)
    (hw : fs.walk root = .ok items) (hi : item ∈ items) : IsOperand item.path := by
  have hroot : IsOperand root := by
    refine ⟨?_, h⟩
    rintro rfl
    cases hw
  have hcons : ∀ (first : FileSystem.WalkItem) loc, first.path = root → item ∈ first :: fs.below loc root →
      IsOperand item.path := by
    intro first loc hfirst hmem
    rcases List.mem_cons.1 hmem with rfl | hmem
    · exact hfirst ▸ hroot
    · exact isOperand_of_mem_walkBelow hroot hmem
  have hsingle : ∀ first : FileSystem.WalkItem, first.path = root → item ∈ [first] → IsOperand item.path :=
    fun first hfirst hmem => by
      rw [List.mem_singleton.1 hmem, hfirst]
      exact hroot
  unfold FileSystem.walk at hw
  split at hw
  · cases hw
  · cases hw
    exact hcons _ _ rfl hi
  · split at hw
    · cases hw
    · cases hw
      exact hcons _ _ rfl hi
    · cases hw
      exact hsingle _ rfl hi
  · cases hw
    exact hsingle _ rfl hi

theorem isOperand_of_discover {search : SearchPath} (h : DashFree root) (hs : SearchPath.discover fs root = .ok search)
    {dir : Path} (hdir : dir ∈ search.dirs) : IsOperand dir := by
  unfold SearchPath.discover FileSystem.walkedDirs at hs
  cases hw : fs.walk root with
  | error e =>
    rw [hw] at hs
    cases hs
  | ok items =>
    rw [hw] at hs
    cases hs
    obtain ⟨item, hi, hd⟩ := List.mem_filterMap.1 hdir
    rw [FileSystem.dir?_eq_some] at hd
    subst hd
    exact isOperand_of_mem_walk h hw hi

theorem isOperand_of_listFiles {suffix : Text} {files : List Path} (h : DashFree root)
    (hl : listFiles fs root suffix = .ok files) {file : Path} (hfile : file ∈ files) : IsOperand file := by
  unfold listFiles FileSystem.walkedFiles at hl
  cases hw : fs.walk root with
  | error e =>
    rw [hw] at hl
    cases hl
  | ok items =>
    rw [hw] at hl
    cases hl
    obtain ⟨item, hi, hf⟩ := List.mem_filterMap.1 (List.mem_filter.1 hfile).1
    have hpath : item.path = file := by
      unfold FileSystem.WalkItem.file? at hf
      split at hf
      · exact Option.some.inj hf
      · cases hf
    exact hpath ▸ isOperand_of_mem_walk h hw hi

end

/-! ## Command lines of the compiler -/

/-- No value in the request starts with a dash. -/
structure IsDashFreeRequest (r : Request) : Prop where
  includeDirs : ∀ dir ∈ r.includeDirs.dirs, DashFree dir
  outputDir : DashFree r.outputDir
  options : DashFree r.options
  source : DashFree r.source

structure Call where
  dirs : List Path
  outputDir : Option Path
  options : Option Text
  source : Path
deriving DecidableEq, Repr

namespace Call

def ofRequest (r : Request) : Call := ⟨r.includeDirs.dirs, some r.outputDir, some r.options, r.source⟩

/-- The call with one more option in front. -/
def withOption? (call : Call) (option : Text) (value : Text) : Option Call :=
  if option = "-I".toList then some { call with dirs := value :: call.dirs }
  else if option = "-out".toList then some { call with outputDir := some value }
  else if option = "--gen".toList then some { call with options := some value }
  else none

/-- A command line read by its dashes alone: what starts with a dash is an option, and has the argument behind it as its
value, which must not; what is left is the source. -/
def read? : List Text → Option Call
  | [] => none
  | [source] => if DashFree source then some ⟨[], none, none, source⟩ else none
  | option :: value :: rest =>
    if DashFree option ∨ ¬DashFree value then none
    else (read? rest).bind (·.withOption? option value)

theorem read?_option_eq_some {option value : Text} {rest : List Text} {call : Call} (ho : ¬DashFree option) :
    read? (option :: value :: rest) = some call ↔
      DashFree value ∧ ∃ behind, read? rest = some behind ∧ behind.withOption? option value = some call := by
  rw [read?]
  by_cases hv : DashFree value
  · rw [if_neg (by simp [ho, hv]), Option.bind_eq_some_iff]
    simp [hv]
  · rw [if_pos (.inr hv)]
    simp [hv]

theorem read?_source_eq_some {source : Path} {call : Call} :
    read? [source] = some call ↔ DashFree source ∧ call = ⟨[], none, none, source⟩ := by
  rw [read?]
  split_ifs with hs
  · simp [hs, eq_comm]
  · simp [hs]

theorem read?_dirs_eq_some {dirs : List Path} {rest : List Text} {call : Call} :
    read? (dirs.flatMap (fun dir => ["-I".toList, dir]) ++ rest) = some call ↔
      (∀ dir ∈ dirs, DashFree dir) ∧
        ∃ behind, read? rest = some behind ∧ call = { behind with dirs := dirs ++ behind.dirs } := by
  induction dirs generalizing call with
  | nil => simp [eq_comm]
  | cons dir dirs ih =>
    have hdash : ¬DashFree "-I".toList := by decide
    rw [List.flatMap_cons, List.append_assoc]
    show read? ("-I".toList :: dir :: (dirs.flatMap _ ++ rest)) = some call ↔ _
    rw [read?_option_eq_some hdash, List.forall_mem_cons, and_assoc]
    refine and_congr_right fun _ => ⟨?_, ?_⟩
    · rintro ⟨between, hb, hcall⟩
      obtain ⟨hfree, behind, hbehind, rfl⟩ := ih.1 hb
      cases hcall
      exact ⟨hfree, behind, hbehind, rfl⟩
    · rintro ⟨hfree, behind, hbehind, rfl⟩
      exact ⟨_, ih.2 ⟨hfree, behind, hbehind, rfl⟩, rfl⟩

/-- The command line of a request is read as what the request asks for, unless one of its values starts with a dash;
then it cannot be read. -/
theorem read?_commandOf (binary : Path) (r : Request) (call : Call) :
    read? (Run.commandOf binary r).args = some call ↔ IsDashFreeRequest r ∧ call = ofRequest r := by
  have hout : ¬DashFree "-out".toList := by decide
  have hgen : ¬DashFree "--gen".toList := by decide
  unfold Run.commandOf
  simp only [read?_dirs_eq_some, read?_option_eq_some hout, read?_option_eq_some hgen, read?_source_eq_some]
  constructor
  · rintro ⟨hdirs, behind, ⟨hdir, between, ⟨hoptions, last, ⟨hsource, rfl⟩, hl⟩, hb⟩, rfl⟩
    cases hl
    cases hb
    exact ⟨⟨hdirs, hdir, hoptions, hsource⟩, by simp [ofRequest]⟩
  · rintro ⟨⟨hdirs, hdir, hoptions, hsource⟩, rfl⟩
    exact ⟨hdirs, _, ⟨hdir, _, ⟨hoptions, _, ⟨hsource, rfl⟩, rfl⟩, rfl⟩, by simp [ofRequest]⟩

end Call

/-! ## Runs -/

section
variable {settings : Settings} {compiler : Compiler} {scratch : Path} {fs : FileSystem} {r : Request}

theorem isDashFree_of_mem_requests (hinput : DashFree settings.input) (houtput : DashFree settings.output)
    (hjava : DashFree settings.javaOptions) (hscript : DashFree settings.scriptOptions)
    (hscratch : Path.isAbsolute scratch = true)
    (hr : r ∈ (runFrom (generate settings compiler scratch) fs).2.requests) : IsDashFreeRequest r := by
  obtain ⟨start, search, files, file, ns, hsearch, hfiles, hfile, hr⟩ := Run.exists_of_mem_requests hr
  have hdirs : ∀ dir ∈ search.dirs, DashFree dir := fun dir hdir => (isOperand_of_discover hinput hsearch hdir).dashFree
  have hsource : DashFree file := (isOperand_of_listFiles hinput hfiles hfile).dashFree
  rcases List.mem_cons.1 hr with rfl | hr
  · refine ⟨hdirs, ?_, hjava, hsource⟩
    show DashFree (Path.join settings.output "java".toList)
    by_cases hempty : settings.output = []
    · rw [hempty]
      decide
    · exact (IsOperand.join ⟨hempty, houtput⟩ _).dashFree
  · rw [List.mem_singleton.1 hr]
    exact ⟨hdirs, ((isOperand_of_isAbsolute hscratch).join ns).dashFree, hscript, hsource⟩

end

/-- No accepted command line passes an option to the compiler. None of its values starts with a dash, and none in a
request that the run makes does; the compiler's command line, read by its dashes alone, is what the request asks for,
and that of no other request. -/
theorem parse_passes_no_option (environment : Option Text) (args : List Text) (a : Arguments)
    (h : parse environment args = .ok a) :
    a.IsDashFree ∧ ∀ (compiler : Compiler) (scratch : Path) (fs : FileSystem), Path.isAbsolute scratch = true →
      ∀ r ∈ (runFrom (generate a.settings compiler scratch) fs).2.requests,
        IsDashFreeRequest r ∧ Call.read? (Run.commandOf a.thrift r).args = some (Call.ofRequest r) ∧
          ∀ other : Request, (Run.commandOf a.thrift other).args = (Run.commandOf a.thrift r).args →
            Call.ofRequest other = Call.ofRequest r := by
  have ha := isDashFree_of_parse h
  refine ⟨ha, fun compiler scratch fs hscratch r hr => ?_⟩
  have hfree := isDashFree_of_mem_requests ha.input ha.output ha.javaOptions ha.scriptOptions hscratch hr
  have hread := (Call.read?_commandOf a.thrift r _).2 ⟨hfree, rfl⟩
  refine ⟨hfree, hread, fun other hargs => ?_⟩
  rw [← hargs] at hread
  exact ((Call.read?_commandOf a.thrift other _).1 hread).2.symm

/-! ## A directory named like an option -/

/-- A source in a directory that is called like an option. -/
def dashedFiles : FileSystem :=
  Run.small [["t"], ["idl"], ["-I", "idl"]] [(["a.thrift", "-I", "idl"], "namespace js a\n")]

def idleCompiler : Compiler := fun _ => pure ⟨some 0, []⟩

def dashedArguments : List Text :=
  ["--project=app".toList, "-mi=idl".toList, "-s".toList, "out".toList, "--js-gen".toList, "js".toList]

def dashedCalls : List Call :=
  [⟨["idl".toList, "idl/-I".toList], some "out/java".toList, some defaultJavaGen, "idl/-I/a.thrift".toList⟩,
    ⟨["idl".toList, "idl/-I".toList], some "/t/s/a".toList, some "js".toList, "idl/-I/a.thrift".toList⟩]

theorem parse_passes_no_option_dashed :
    ∃ a, parse (some "bin/thrift".toList) dashedArguments = .ok a ∧ a.IsDashFree ∧
      (runFrom (generate a.settings idleCompiler "/t/s".toList) dashedFiles).2.requests.map
        (fun r => Call.read? (Run.commandOf a.thrift r).args) = dashedCalls.map some := by
  have hparse : parse (some "bin/thrift".toList) dashedArguments =
      .ok ⟨⟨"app".toList, "idl".toList, "out".toList, true, defaultJavaGen, "js".toList⟩, "bin/thrift".toList⟩ := by
    decide +kernel
  obtain ⟨ha, hrun⟩ := parse_passes_no_option _ _ _ hparse
  refine ⟨_, hparse, ha, ?_⟩
  have hread := fun r hr => (hrun idleCompiler "/t/s".toList dashedFiles (by decide) r hr).2.1
  rw [List.map_congr_left hread]
  decide +kernel

end ThriftModules.CommandLine
