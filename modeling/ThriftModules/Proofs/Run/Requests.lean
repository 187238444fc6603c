import ThriftModules.Proofs.Idl.Dotted
import ThriftModules.Proofs.Run.Imports

/-!
# The requests of a run

* `Visit.serverRequest`, `Visit.clientRequest` : the two requests that a visit may make;
* `Visit.Starts` : a visit that gets as far as its first request, with the file system that it makes it from;
* `Visit.Asks` : the requests of a visit, none, the server's alone, or the server's and then the client's;
* `HasAsked`, `Silent` : the requests of a run so far, and steps that make none;
* `Visit.start`, `Visit.compileAll` : a draft in two steps, up to its first request and from there on;
* `Visit.Asks.draft_ends` : a visit makes the requests that it asks (`processAll_asks` for a run over sources);
* `generate_requests` : the requests of a whole run.
-/

namespace ThriftModules.Run

set_option autoImplicit false

open Idl (Source Includes SearchPath readSource resolveIncludes)
open Output (Tree listFiles)
open Chain (Ends)

/-! ## What a visit asks for -/

/-- The compiler succeeds on a request and leads from one file system to the other. -/
def Succeeds (compiler : Compiler) (r : Request) (fs fs' : FileSystem) : Prop :=
  ∃ outcome, compiler r fs = .ok outcome fs' ∧ outcome.success = true

namespace Visit

def serverRequest (v : Visit) : Request :=
  ⟨v.file, v.setup.search, v.setup.tree.javaDir, .java, v.setup.settings.javaOptions⟩

def clientRequest (v : Visit) (ns : Namespace) : Request :=
  ⟨v.file, v.setup.search, Path.join v.setup.scratch ns, .javaScript, v.setup.settings.scriptOptions⟩

/-- The source is read and declares exactly one namespace, which is not taken; its includes are resolved and its
directory is made, which leads to the file system `made`. -/
structure Starts (v : Visit) (ns : Namespace) (made : FileSystem) : Prop where
  read : ∃ source, readSource v.journal.files v.file = .ok source ∧ source.namespaces.toList = [ns] ∧
    ∃ includes, resolveIncludes v.setup.search v.journal.files source = .ok includes
  new : ns ∉ v.taken
  made : FileSystem.makeDirs (Path.join v.setup.scratch ns) v.journal.files = .ok () made

/-- The requests of a visit: none if it does not start; the server's; and the client's if the server's succeeds. -/
inductive Asks (v : Visit) : List Request → Prop where
  | nothing : (∀ ns made, ¬v.Starts ns made) → Asks v []
  | server {ns : Namespace} {made : FileSystem} : v.Starts ns made →
      (∀ compiled, ¬Succeeds v.setup.compiler v.serverRequest made compiled) → Asks v [v.serverRequest]
  | both {ns : Namespace} {made compiled : FileSystem} : v.Starts ns made →
      Succeeds v.setup.compiler v.serverRequest made compiled → Asks v [v.serverRequest, v.clientRequest ns]

end Visit

/-! ## Requests made so far -/

section
variable {α β ε : Type} {rs : List Request} {j : Journal}

/-- However a step ends, the requests made until then are the given ones. -/
def HasAsked (rs : List Request) : EStateM.Result RunError Journal α → Prop :=
  Ends (fun _ j => j.requests = rs) fun _ j => j.requests = rs

def Silent (x : RunM α) : Prop := ∀ j, HasAsked j.requests (x j)

theorem Silent.bind {x : RunM α} {f : α → RunM β} (hx : Silent x) (hf : ∀ a, Silent (f a)) : Silent (x >>= f) :=
  fun j => Ends.bind (hx j) fun a j' _ hj' => hj' ▸ hf a j'

theorem silent_pure (a : α) : Silent (pure a) := fun _ => rfl

theorem silent_onDisk (rename : ε → RunError) (x : FileSystem.DiskM ε α) : Silent (onDisk rename x) := by
  intro j
  unfold onDisk
  cases x j.files <;> rfl

theorem silent_look (rename : ε → RunError) (f : FileSystem → Except ε α) : Silent (look rename f) :=
  silent_onDisk rename _

theorem silent_collect (dir : Path) (suffix : Text) : Silent (collect dir suffix) :=
  (silent_look _ _).bind fun _ => (silent_look _ _).bind fun _ => silent_pure _

theorem silent_warnMissing (file : Path) (kind : ModuleKind) (missing : List Module.Missing) :
    Silent (warnMissing file kind missing) := fun _ => rfl

theorem silent_publish (setup : Setup) (file : Path) (d : Draft) : Silent (publish setup file d) :=
  (silent_warnMissing _ _ _).bind fun _ => (silent_warnMissing _ _ _).bind fun _ =>
    (silent_onDisk _ _).bind fun _ => (silent_onDisk _ _).bind fun _ => (silent_onDisk _ _).bind fun _ =>
      (silent_onDisk _ _).bind fun _ => silent_pure _

theorem Silent.hasAsked {x : RunM α} (hx : Silent x) (h : j.requests = rs) : HasAsked rs (x j) := h ▸ hx j

/-- A compilation makes its request, and goes on if the compiler succeeds. -/
theorem compile_asks (setup : Setup) (source outputDir : Path) (target : Target) (options : Text) (j : Journal) :
    Ends
      (fun _ j' => j'.requests = j.requests ++ [requestOf setup source outputDir target options] ∧
        Succeeds setup.compiler (requestOf setup source outputDir target options) j.files j'.files)
      (fun _ j' => j'.requests = j.requests ++ [requestOf setup source outputDir target options] ∧
        ∀ fs', ¬Succeeds setup.compiler (requestOf setup source outputDir target options) j.files fs')
      (compile setup source outputDir target options j) := by
  have hcalled : Ends
      (fun outcome j' => j'.requests = j.requests ++ [requestOf setup source outputDir target options] ∧
        setup.compiler (requestOf setup source outputDir target options) j.files = .ok outcome j'.files)
      (fun _ j' => j'.requests = j.requests ++ [requestOf setup source outputDir target options] ∧
        ∀ fs', ¬Succeeds setup.compiler (requestOf setup source outputDir target options) j.files fs')
      (onDisk RunError.notRun (setup.compiler (requestOf setup source outputDir target options))
        { j with requests := j.requests ++ [requestOf setup source outputDir target options] }) := by
    refine ends_onDisk (Chain.ends_iff.2 ⟨fun outcome fs hc => ⟨rfl, hc⟩, fun e fs hc => ⟨rfl, ?_⟩⟩)
    rintro fs' ⟨outcome, hok, -⟩
    rw [hc] at hok
    cases hok
  refine hcalled.bind fun outcome j' _ ⟨hrequests, hc⟩ => ?_
  cases hs : outcome.success with
  | true => exact ⟨hrequests, outcome, hc, hs⟩
  | false =>
    refine ⟨hrequests, ?_⟩
    rintro fs' ⟨outcome', hok, hs'⟩
    rw [hc] at hok
    cases hok
    rw [hs] at hs'
    cases hs'

end

/-! ## A visit -/

section
variable {v : Visit} {ns ns' : Namespace} {made made' : FileSystem} {asked : List Request}

theorem Visit.Starts.unique (h : v.Starts ns made) (h' : v.Starts ns' made') : ns = ns' ∧ made = made' := by
  obtain ⟨source, hread, hns, -⟩ := h.read
  obtain ⟨source', hread', hns', -⟩ := h'.read
  cases hread.symm.trans hread'
  cases hns.symm.trans hns'
  cases h.made.symm.trans h'.made
  exact ⟨rfl, rfl⟩

theorem Visit.Asks.eq_nil (h : v.Asks asked) (hno : ∀ ns made, ¬v.Starts ns made) : asked = [] := by
  cases h with
  | nothing _ => rfl
  | server hs _ => exact absurd hs (hno _ _)
  | both hs _ => exact absurd hs (hno _ _)

theorem Visit.exists_asks (v : Visit) : ∃ asked, v.Asks asked := by
  by_cases hstarts : ∃ ns made, v.Starts ns made
  · obtain ⟨ns, made, hs⟩ := hstarts
    by_cases hserver : ∃ compiled, Succeeds v.setup.compiler v.serverRequest made compiled
    · obtain ⟨compiled, hc⟩ := hserver
      exact ⟨_, .both hs hc⟩
    · exact ⟨_, .server hs fun compiled hc => hserver ⟨compiled, hc⟩⟩
  · exact ⟨[], .nothing fun ns made hs => hstarts ⟨ns, made, hs⟩⟩

theorem ownNamespace_eq_ok_iff {s : Source} {origin : Text} :
    s.ownNamespace origin = .ok ns ↔ s.namespaces.toList = [ns] := by
  rw [← Source.namespace?_eq_ok_iff]
  refine ⟨Idl.namespace?_of_ownNamespace, fun h => ?_⟩
  rw [Source.ownNamespace, h]

/-- A draft up to the making of its source's directory: the source, its namespace and its includes. -/
def Visit.start (v : Visit) : RunM (Source × Namespace × Includes) := do
  let source ← look .source (readSource · v.file)
  let ns ← orStop .source (source.ownNamespace source.identifier)
  if v.taken.contains ns then throw (.repeated ns v.file)
  let includes ← look .source (resolveIncludes v.setup.search · source)
  onDisk (.workDir (Path.join v.setup.scratch ns)) (FileSystem.makeDirs (Path.join v.setup.scratch ns))
  return (source, ns, includes)

def Visit.compileAll (v : Visit) (source : Source) (ns : Namespace) (includes : Includes) : RunM Draft := do
  compile v.setup v.file v.setup.tree.javaDir .java v.setup.settings.javaOptions
  compile v.setup v.file (Path.join v.setup.scratch ns) .javaScript v.setup.settings.scriptOptions
  let (declarationFiles, declarationTexts) ← collect (Path.join v.setup.scratch ns) Output.declarationSuffix
  let (scriptFiles, scriptTexts) ← collect (Path.join v.setup.scratch ns) Output.scriptSuffix
  return ⟨source, includes, modulesOf v.setup source ns includes scriptTexts declarationTexts, declarationFiles,
    scriptFiles⟩

theorem Visit.draft_eq (v : Visit) :
    draft v.setup v.taken v.file = v.start >>= fun started => v.compileAll started.1 started.2.1 started.2.2 := by
  unfold draft Visit.start
  rw [bind_assoc]
  refine bind_congr fun source => ?_
  rw [bind_assoc]
  refine bind_congr fun ns => ?_
  dsimp only
  split
  · rfl
  · simp only [bind_assoc, pure_bind]
    rfl

theorem Visit.start_ends (v : Visit) :
    Ends (fun started j => v.Starts started.2.1 j.files ∧ j.requests = v.journal.requests)
      (fun _ j => (∀ ns made, ¬v.Starts ns made) ∧ j.requests = v.journal.requests) (v.start v.journal) := by
  unfold Visit.start
  refine Ends.bind (P := fun source j => readSource v.journal.files v.file = .ok source ∧ j = v.journal)
    (ends_look (fun _ hread => ⟨hread, rfl⟩) fun e he => ⟨fun ns made hs => ?_, rfl⟩) ?_
  · obtain ⟨source, hread, -⟩ := hs.read
    cases he.symm.trans hread
  rintro source _ - ⟨hread, rfl⟩
  have hsource : ∀ {ns made}, v.Starts ns made → source.namespaces.toList = [ns] ∧
      ∃ includes, resolveIncludes v.setup.search v.journal.files source = .ok includes := by
    intro ns made hs
    obtain ⟨source', hread', hrest⟩ := hs.read
    cases hread.symm.trans hread'
    exact hrest
  refine Ends.bind (P := fun ns j => source.ownNamespace source.identifier = .ok ns ∧ j = v.journal)
    (ends_orStop (fun _ hns => ⟨hns, rfl⟩) fun e he => ⟨fun ns made hs => ?_, rfl⟩) ?_
  · cases he.symm.trans (ownNamespace_eq_ok_iff.2 (hsource hs).1)
  rintro ns _ - ⟨hns, rfl⟩
  have hunique : ∀ {ns' made}, v.Starts ns' made → ns' = ns := fun hs => by
    cases (ownNamespace_eq_ok_iff.1 hns).symm.trans (hsource hs).1
    rfl
  dsimp only
  split
  · next htaken =>
    refine ⟨fun ns' made hs => hs.new ?_, rfl⟩
    rw [hunique hs]
    simpa using htaken
  next hnew =>
  refine Ends.bind (P := fun includes j => resolveIncludes v.setup.search v.journal.files source = .ok includes ∧
    j = v.journal) (ends_look (fun _ hi => ⟨hi, rfl⟩) fun e he => ⟨fun ns' made hs => ?_, rfl⟩) ?_
  · obtain ⟨includes, hi⟩ := (hsource hs).2
    cases he.symm.trans hi
  rintro includes _ - ⟨hincludes, rfl⟩
  refine Ends.bind (P := fun _ j => v.Starts ns j.files ∧ j.requests = v.journal.requests)
    (ends_onDisk (Chain.ends_iff.2 ⟨fun _ made hmade => ⟨⟨⟨source, hread, ownNamespace_eq_ok_iff.1 hns, includes,
      hincludes⟩, by simpa using hnew, hmade⟩, rfl⟩, fun e fs he => ⟨fun ns' made hs => ?_, rfl⟩⟩)) ?_
  · have hmade := hs.made
    rw [hunique hs, he] at hmade
    cases hmade
  rintro _ j - hs
  exact hs

/-- Nothing after the server's request goes on where the compiler fails on it. -/
theorem Visit.compileAll_fails {j : Journal} (source : Source) (ns : Namespace) (includes : Includes)
    (hfails : ∀ compiled, ¬Succeeds v.setup.compiler v.serverRequest j.files compiled) :
    Ends (fun _ _ => False) (fun _ j' => j'.requests = j.requests ++ [v.serverRequest])
      (v.compileAll source ns includes j) := by
  have hserver := compile_asks v.setup v.file v.setup.tree.javaDir .java v.setup.settings.javaOptions j
  exact Ends.bind (P := fun _ _ => False) (hserver.mono (fun _ j' h => hfails j'.files h.2) fun _ _ h => h.1)
    fun _ _ _ h => h.elim

/-- The client's request is made where the compiler succeeds on the server's. -/
theorem Visit.compileAll_goesOn {j : Journal} {compiled : FileSystem} (source : Source) (ns : Namespace)
    (includes : Includes) (hc : Succeeds v.setup.compiler v.serverRequest j.files compiled) :
    Ends (fun d j' => j'.requests = j.requests ++ [v.serverRequest, v.clientRequest ns] ∧ d.modules.ns = ns)
      (fun _ j' => j'.requests = j.requests ++ [v.serverRequest, v.clientRequest ns])
      (v.compileAll source ns includes j) := by
  have hserver := compile_asks v.setup v.file v.setup.tree.javaDir .java v.setup.settings.javaOptions j
  refine Ends.bind (P := fun _ j' => j'.requests = j.requests ++ [v.serverRequest])
    (hserver.mono (fun _ _ h => h.1) fun _ _ h => absurd hc (h.2 compiled)) ?_
  rintro _ j₁ - h₁
  have hclient := compile_asks v.setup v.file (Path.join v.setup.scratch ns) .javaScript
    v.setup.settings.scriptOptions j₁
  rw [h₁, List.append_assoc] at hclient
  refine Ends.bind (hclient.mono (fun _ _ h => h.1) fun _ _ h => h.1) fun _ j₂ _ h₂ => ?_
  refine Ends.bind ((silent_collect _ _).hasAsked h₂) fun _ j₃ _ h₃ => ?_
  exact Ends.bind ((silent_collect _ _).hasAsked h₃) fun _ j₄ _ h₄ => ⟨h₄, rfl⟩

/-- A draft makes the requests that its visit asks; it makes both if it succeeds. -/
theorem Visit.Asks.draft_ends (h : v.Asks asked) :
    Ends
      (fun d j => j.requests = v.journal.requests ++ asked ∧ asked = [v.serverRequest, v.clientRequest d.modules.ns])
      (fun _ j => j.requests = v.journal.requests ++ asked) (draft v.setup v.taken v.file v.journal) := by
  rw [v.draft_eq]
  refine Ends.bind (v.start_ends.mono (fun _ _ hs => hs) fun _ j ⟨hno, hj⟩ => ?_) fun ⟨source, ns, includes⟩ j _ hs => ?_
  · rw [h.eq_nil hno, List.append_nil, hj]
  obtain ⟨hs, hj⟩ := hs
  rw [← hj]
  cases h with
  | nothing hno => exact absurd hs (hno _ _)
  | server hs' hfails =>
    obtain ⟨rfl, rfl⟩ := hs.unique hs'
    exact (v.compileAll_fails source _ includes hfails).mono (fun _ _ h => h.elim) fun _ _ h => h
  | both hs' hc =>
    obtain ⟨rfl, rfl⟩ := hs.unique hs'
    refine (v.compileAll_goesOn source _ includes hc).mono (fun d j' hd => ⟨hd.1, ?_⟩) fun _ _ h => h
    rw [hd.2]

theorem Visit.Asks.ends (h : v.Asks asked) :
    HasAsked (v.journal.requests ++ asked) (processSource v.setup v.taken v.file v.journal) := by
  rw [processSource_eq]
  exact h.draft_ends.bind fun d _ _ hj => (silent_publish _ _ d).hasAsked hj.1

theorem Visit.Asks.of_finishes (h : v.Asks asked) (hf : v.finishes ns) :
    asked = [v.serverRequest, v.clientRequest ns] := by
  obtain ⟨d, j, hd, rfl⟩ := hf.exists_draft
  exact (h.draft_ends.ok hd).2

theorem Visit.finishes.not_mem (h : v.finishes ns) : ns ∉ v.taken := by
  obtain ⟨d, j, hd, rfl⟩ := h.exists_draft
  exact (draft_eq_ok hd).new

theorem Visit.finishes.isRelative (h : v.finishes ns) : Path.isAbsolute ns = false := by
  obtain ⟨d, j, hd, rfl⟩ := h.exists_draft
  obtain ⟨-, hchars⟩ := isNamespaceChar_of_namespace? (Idl.namespace?_of_ownNamespace (draft_eq_ok hd).named)
  rw [Path.isAbsolute, beq_eq_false_iff_ne]
  intro hhead
  exact absurd (hchars '/' (List.mem_of_head? hhead)) (by decide)

end

/-! ## All visits -/

section
variable {setup : Setup} {done : Summary} {taken : List Namespace} {files : List Path} {j : Journal}

/-- The requests of a run are those of its visits, one visit after the other. -/
theorem processAll_asks (setup : Setup) (done : Summary) (files : List Path) (j : Journal) :
    ∃ asked, List.Forall₂ Visit.Asks (visits setup done.modules files j) asked ∧
      HasAsked (j.requests ++ asked.flatten) (processAll setup done files j) := by
  induction files generalizing done j with
  | nil => exact ⟨[], .nil, (List.append_nil _).symm⟩
  | cons file rest ih =>
    obtain ⟨first, hfirst⟩ := Visit.exists_asks ⟨setup, done.modules, file, j⟩
    have hends := hfirst.ends
    rw [visits, processAll]
    cases hx : processSource setup done.modules file j with
    | error e j₁ =>
      refine ⟨[first], .cons hfirst .nil, ?_⟩
      rw [List.flatten_singleton]
      exact Ends.bind_of_error hx (hends.error hx)
    | ok r j₁ =>
      obtain ⟨asked, hall, hrest⟩ := ih ⟨done.modules ++ [r.1], done.merged, done.missing + r.2⟩ j₁
      refine ⟨first :: asked, .cons hfirst hall, ?_⟩
      have hj₁ := hends.ok hx
      rw [hj₁, List.append_assoc] at hrest
      exact Ends.bind_of_ok hx hrest

theorem visits_cons_ok {file : Path} {rest : List Path} {r : Namespace × Nat} {j' : Journal}
    (h : processSource setup taken file j = .ok r j') :
    visits setup taken (file :: rest) j = ⟨setup, taken, file, j⟩ :: visits setup (taken ++ [r.1]) rest j' := by
  rw [visits, h]

theorem visits_cons_error {file : Path} {rest : List Path} {e : RunError} {j' : Journal}
    (h : processSource setup taken file j = .error e j') :
    visits setup taken (file :: rest) j = [⟨setup, taken, file, j⟩] := by
  rw [visits, h]

/-- A visit comes after visits that have finished, whose namespaces are taken. -/
theorem finishes_of_visits_eq {before after : List Visit} {v : Visit}
    (h : visits setup taken files j = before ++ v :: after) :
    ∃ names, List.Forall₂ Visit.finishes before names ∧ v.taken = taken ++ names := by
  induction files generalizing taken j before with
  | nil => simp [visits] at h
  | cons file rest ih =>
    cases hx : processSource setup taken file j with
    | error e j₁ =>
      rw [visits_cons_error hx, List.singleton_eq_append_iff] at h
      obtain ⟨rfl, h⟩ | ⟨-, h⟩ := h
      · obtain ⟨rfl, -⟩ := List.cons.inj h
        exact ⟨[], .nil, (List.append_nil _).symm⟩
      · cases h
    | ok r j₁ =>
      rw [visits_cons_ok hx] at h
      cases before with
      | nil =>
        obtain ⟨rfl, -⟩ := List.cons.inj h
        exact ⟨[], .nil, (List.append_nil _).symm⟩
      | cons w before =>
        obtain ⟨rfl, hrest⟩ := List.cons.inj h
        obtain ⟨names, hall, htaken⟩ := ih hrest
        exact ⟨r.1 :: names, .cons ⟨r.2, j₁, hx⟩ hall, by rw [htaken, List.append_assoc]; rfl⟩

/-- The visits go through the files in order, up to one that does not finish. -/
theorem files_of_visits (setup : Setup) (taken : List Namespace) (files : List Path) (j : Journal) :
    (visits setup taken files j).map Visit.file <+: files ∧
      ((visits setup taken files j).map Visit.file = files ∨
        ∃ v, (visits setup taken files j).getLast? = some v ∧ ∀ ns, ¬v.finishes ns) := by
  induction files generalizing taken j with
  | nil => exact ⟨List.nil_prefix, .inl rfl⟩
  | cons file rest ih =>
    cases hx : processSource setup taken file j with
    | error e j₁ =>
      rw [visits_cons_error hx]
      refine ⟨⟨rest, rfl⟩, .inr ⟨_, rfl, ?_⟩⟩
      rintro ns ⟨missing, j', hok⟩
      cases hx.symm.trans hok
    | ok r j₁ =>
      obtain ⟨hlead, hlast⟩ := ih (taken ++ [r.1]) j₁
      rw [visits_cons_ok hx]
      refine ⟨List.cons_prefix_cons.2 ⟨rfl, hlead⟩, hlast.imp (congrArg (file :: ·)) ?_⟩
      rintro ⟨v, hv, hno⟩
      exact ⟨v, by rw [List.getLast?_cons, hv]; rfl, hno⟩

/-- The namespaces of visits that finish are distinct, and none was taken before. -/
theorem nodup_names {names : List Namespace} (h : List.Forall₂ Visit.finishes (visits setup taken files j) names)
    (htaken : taken.Nodup) : (taken ++ names).Nodup := by
  induction files generalizing taken j names with
  | nil =>
    cases h
    rwa [List.append_nil]
  | cons file rest ih =>
    cases hx : processSource setup taken file j with
    | error e j₁ =>
      rw [visits_cons_error hx] at h
      obtain ⟨ns, -, ⟨missing, j', hok⟩, -, -⟩ := List.forall₂_cons_left_iff.1 h
      cases hx.symm.trans hok
    | ok r j₁ =>
      rw [visits_cons_ok hx] at h
      obtain ⟨ns, names, hfirst, hrest, rfl⟩ := List.forall₂_cons_left_iff.1 h
      have hnew := hfirst.not_mem
      obtain ⟨missing, j', hok⟩ := hfirst
      cases hx.symm.trans hok
      have hnodup : (taken ++ [ns]).Nodup := List.nodup_append.2 ⟨htaken, List.nodup_singleton ns, fun a ha b hb e =>
        hnew (List.mem_singleton.1 hb ▸ e ▸ ha)⟩
      have hall := ih hrest hnodup
      rwa [List.append_assoc] at hall

theorem eq_of_join_eq {base a b : Path} (ha : Path.isAbsolute a = false) (hb : Path.isAbsolute b = false)
    (h : Path.join base a = Path.join base b) : a = b := by
  unfold Path.join at h
  rw [ha, hb, if_neg Bool.false_ne_true, if_neg Bool.false_ne_true] at h
  split at h
  · exact List.append_cancel_left h
  · exact (List.cons.inj (List.append_cancel_left h)).2

/-! ## Requests of visits that finish -/

def requestsFor (setup : Setup) (file : Path) (ns : Namespace) : List Request :=
  [⟨file, setup.search, setup.tree.javaDir, .java, setup.settings.javaOptions⟩,
    ⟨file, setup.search, Path.join setup.scratch ns, .javaScript, setup.settings.scriptOptions⟩]

theorem Visit.Asks.exists_of_mem {v : Visit} {asked : List Request} {r : Request} (h : v.Asks asked) (hr : r ∈ asked) :
    ∃ ns, r ∈ requestsFor v.setup v.file ns := by
  cases h with
  | nothing _ => cases hr
  | server _ _ => exact ⟨[], List.mem_cons.2 (.inl (List.mem_singleton.1 hr))⟩
  | both _ _ => exact ⟨_, hr⟩

theorem asked_of_finishes {vs : List Visit} {asked : List (List Request)} {names : List Namespace}
    (h : List.Forall₂ Visit.Asks vs asked) (hf : List.Forall₂ Visit.finishes vs names)
    (hsetup : ∀ v ∈ vs, v.setup = setup) : asked = List.zipWith (requestsFor setup) (vs.map Visit.file) names := by
  induction h generalizing names with
  | nil =>
    cases hf
    rfl
  | cons hfirst _ ih =>
    obtain ⟨ns, names, hns, hrest, rfl⟩ := List.forall₂_cons_left_iff.1 hf
    obtain rfl := hsetup _ List.mem_cons_self
    rw [ih hrest fun v hv => hsetup v (List.mem_cons_of_mem _ hv), hfirst.of_finishes hns]
    rfl

theorem length_requestsFor (setup : Setup) {files : List Path} {names : List Namespace}
    (h : files.length = names.length) :
    (List.zipWith (requestsFor setup) files names).flatten.length = 2 * files.length := by
  induction files generalizing names with
  | nil => rfl
  | cons file files ih =>
    cases names with
    | nil => cases h
    | cons ns names =>
      rw [List.zipWith_cons_cons, List.flatten_cons, List.length_append, ih (Nat.succ.inj h), List.length_cons]
      simp only [requestsFor, List.length_cons, List.length_nil]
      omega

theorem clientDirs_requestsFor (setup : Setup) {files : List Path} {names : List Namespace}
    (h : files.length = names.length) :
    ((List.zipWith (requestsFor setup) files names).flatten.filter (·.target = .javaScript)).map Request.outputDir =
      names.map (Path.join setup.scratch) := by
  induction files generalizing names with
  | nil =>
    cases names with
    | nil => rfl
    | cons ns names => cases h
  | cons file files ih =>
    cases names with
    | nil => cases h
    | cons ns names =>
      rw [List.zipWith_cons_cons, List.flatten_cons, List.filter_append, List.map_append, ih (Nat.succ.inj h),
        List.map_cons]
      simp [requestsFor]

end

/-! ## A whole run -/

section
variable {settings : Settings} {compiler : Compiler} {scratch : Path} {fs made start : FileSystem} {tree : Tree}
  {search : SearchPath} {files : List Path}

theorem holds_runFrom {α : Type} {x : RunM α} {P : Except RunError α → Journal → Prop}
    (h : Ends (fun a j => P (.ok a) j) (fun e j => P (.error e) j) (x ⟨fs, [], []⟩)) :
    P (runFrom x fs).1 (runFrom x fs).2 := by
  unfold runFrom
  cases hx : x ⟨fs, [], []⟩ with
  | ok a j => exact h.ok hx
  | error e j => exact h.error hx

/-- A run that lists its sources makes the requests of its visits; all of them finish if it succeeds. -/
theorem generate_asks (compiler : Compiler) (htree : Tree.initialise settings.output fs = .ok tree made)
    (hscratch : FileSystem.makeDir scratch made = .ok () start)
    (hsearch : SearchPath.discover start settings.input = .ok search)
    (hfiles : listFiles start settings.input [] = .ok files) :
    ∃ asked, List.Forall₂ Visit.Asks (visits ⟨settings, compiler, tree, scratch, search⟩ [] files ⟨start, [], []⟩) asked ∧
      (runFrom (generate settings compiler scratch) fs).2.requests = asked.flatten ∧
      ∀ s, (runFrom (generate settings compiler scratch) fs).1 = .ok s →
        (visits ⟨settings, compiler, tree, scratch, search⟩ [] files ⟨start, [], []⟩).map Visit.file = files ∧
        List.Forall₂ Visit.finishes (visits ⟨settings, compiler, tree, scratch, search⟩ [] files ⟨start, [], []⟩)
          s.modules := by
  let setup : Setup := ⟨settings, compiler, tree, scratch, search⟩
  obtain ⟨asked, hasked, hends⟩ := processAll_asks setup ⟨[], none, 0⟩ files ⟨start, [], []⟩
  refine ⟨asked, hasked, ?_⟩
  let Visited (s : Summary) : Prop := (visits setup [] files ⟨start, [], []⟩).map Visit.file = files ∧
    List.Forall₂ Visit.finishes (visits setup [] files ⟨start, [], []⟩) s.modules
  refine holds_runFrom (P := fun r j => j.requests = asked.flatten ∧ ∀ s, r = .ok s → Visited s) ?_
  refine Ends.bind_of_ok (onDisk_eq_ok.2 ⟨made, htree, rfl⟩) ?_
  refine Ends.bind_of_ok (onDisk_eq_ok.2 ⟨start, hscratch, rfl⟩) (ends_inScratch ?_)
  refine Ends.bind_of_ok (look_eq_ok.2 ⟨hsearch, rfl⟩) (Ends.bind_of_ok (look_eq_ok.2 ⟨hfiles, rfl⟩) ?_)
  have hfails : ∀ (e : RunError) (j : Journal), j.requests = asked.flatten →
      j.requests = asked.flatten ∧ ∀ s, Except.error e = .ok s → Visited s := fun _ _ hj => ⟨hj, fun s hs => by cases hs⟩
  refine Ends.bind (P := fun s j => j.requests = asked.flatten ∧ Visited s)
    (Chain.ends_iff.2 ⟨fun s j hs => ⟨hends.ok hs, ?_⟩, fun e j he => hfails e j (hends.error he)⟩) ?_
  · obtain ⟨hvisited, names, hall, hmodules⟩ := processAll_eq_ok hs
    obtain rfl : s.modules = names := hmodules
    exact ⟨hvisited, hall⟩
  rintro s j - ⟨hj, hs⟩
  split
  · refine ((silent_onDisk _ _).hasAsked hj).mono (fun _ _ h => h) (fun e j h => hfails e j h) |>.bind
      fun merged j' _ hj' => ⟨hj', fun s' hs' => ?_⟩
    cases hs'
    exact hs
  · refine ⟨hj, fun s' hs' => ?_⟩
    cases hs'
    exact hs

/-- However a run ends, each of its requests is one of those for a source that it lists. -/
theorem exists_of_mem_requests {r : Request}
    (hr : r ∈ (runFrom (generate settings compiler scratch) fs).2.requests) :
    ∃ start search files file ns, SearchPath.discover start settings.input = .ok search ∧
      listFiles start settings.input [] = .ok files ∧ file ∈ files ∧
      r ∈ requestsFor ⟨settings, compiler, ⟨settings.output⟩, scratch, search⟩ file ns := by
  let Known (r : Request) : Prop := ∃ start search files file ns, SearchPath.discover start settings.input = .ok search ∧
    listFiles start settings.input [] = .ok files ∧ file ∈ files ∧
    r ∈ requestsFor ⟨settings, compiler, ⟨settings.output⟩, scratch, search⟩ file ns
  have hnone : ∀ {j : Journal}, j.requests = [] → ∀ r ∈ j.requests, Known r := fun hj r hr => by
    rw [hj] at hr
    cases hr
  refine holds_runFrom (P := fun _ j => ∀ r ∈ j.requests, Known r) ?_ r hr
  refine Ends.bind (P := fun tree j => tree = ⟨settings.output⟩ ∧ j.requests = [])
    (ends_onDisk ((Output.initialise_root _ _).mono (fun _ _ ht => ⟨ht, rfl⟩) fun _ _ _ => hnone rfl)) ?_
  rintro _ j - ⟨rfl, hj⟩
  refine ((silent_onDisk _ _).hasAsked hj).mono (fun _ _ h => h) (fun _ _ h => hnone h) |>.bind fun _ j₁ _ hj₁ => ?_
  refine ends_inScratch ?_
  refine Ends.bind (P := fun search j => SearchPath.discover j.files settings.input = .ok search ∧ j.requests = [])
    (ends_look (fun _ hs => ⟨hs, hj₁⟩) fun _ _ => hnone hj₁) ?_
  rintro search j₂ - ⟨hsearch, hj₂⟩
  refine Ends.bind (P := fun files j => listFiles j₂.files settings.input [] = .ok files ∧ j.requests = [])
    (ends_look (fun _ hl => ⟨hl, hj₂⟩) fun _ _ => hnone hj₂) ?_
  rintro files j₃ - ⟨hfiles, hj₃⟩
  obtain ⟨asked, hasked, hends⟩ :=
    processAll_asks ⟨settings, compiler, ⟨settings.output⟩, scratch, search⟩ ⟨[], none, 0⟩ files j₃
  rw [hj₃, List.nil_append] at hends
  have hknown : ∀ {j : Journal}, j.requests = asked.flatten → ∀ r ∈ j.requests, Known r := by
    intro j hj r hr
    rw [hj] at hr
    obtain ⟨those, hthose, hmem⟩ := List.mem_flatten.1 hr
    obtain ⟨v, hv, hasks⟩ := exists_of_mem_forall₂ hasked.flip hthose
    obtain ⟨ns, hns⟩ := hasks.exists_of_mem hmem
    rw [setup_of_mem_visits hv] at hns
    exact ⟨_, search, files, v.file, ns, hsearch, hfiles,
      (files_of_visits _ _ _ _).1.subset (List.mem_map.2 ⟨v, hv, rfl⟩), hns⟩
  refine (hends.mono (fun _ _ h => h) fun _ _ h => hknown h).bind fun _ j₄ _ hj₄ => ?_
  split
  · exact (((silent_onDisk _ _).hasAsked hj₄).mono (fun _ _ h => h) fun _ _ h => hknown h).bind fun _ _ _ h => hknown h
  · exact hknown hj₄

/-- The requests of a run that lists its sources. It visits them in order, each after visits that have finished and
whose namespaces are taken, up to one that does not finish; its requests are those that the visits ask, one visit after
the other. If it succeeds, it has made the server's and the client's request for every source, and the directories of
the client's requests are distinct. -/
theorem generate_requests (htree : Tree.initialise settings.output fs = .ok tree made)
    (hscratch : FileSystem.makeDir scratch made = .ok () start)
    (hsearch : SearchPath.discover start settings.input = .ok search)
    (hfiles : listFiles start settings.input [] = .ok files) :
    let setup : Setup := ⟨settings, compiler, tree, scratch, search⟩
    let vs := visits setup [] files ⟨start, [], []⟩
    let run := runFrom (generate settings compiler scratch) fs
    (vs.map Visit.file <+: files ∧
      (vs.map Visit.file = files ∨ ∃ v, vs.getLast? = some v ∧ ∀ ns, ¬v.finishes ns)) ∧
    (∀ before v after, vs = before ++ v :: after →
      v.setup = setup ∧ List.Forall₂ Visit.finishes before v.taken) ∧
    (∃ asked, List.Forall₂ Visit.Asks vs asked ∧ run.2.requests = asked.flatten) ∧
    ∀ summary, run.1 = .ok summary → vs.map Visit.file = files ∧ List.Forall₂ Visit.finishes vs summary.modules ∧
      run.2.requests = (List.zipWith (fun file ns =>
        [⟨file, search, tree.javaDir, .java, settings.javaOptions⟩,
          ⟨file, search, Path.join scratch ns, .javaScript, settings.scriptOptions⟩]) files summary.modules).flatten ∧
      run.2.requests.length = 2 * files.length ∧
      ((run.2.requests.filter (·.target = .javaScript)).map Request.outputDir).Nodup := by
  intro setup vs run
  obtain ⟨asked, hasked, hrequests, hok⟩ := generate_asks compiler htree hscratch hsearch hfiles
  refine ⟨files_of_visits _ _ _ _, fun before v after hvs => ?_, ⟨asked, hasked, hrequests⟩, fun summary hs => ?_⟩
  · obtain ⟨names, hbefore, htaken⟩ := finishes_of_visits_eq hvs
    refine ⟨setup_of_mem_visits (hvs ▸ List.mem_append_right before List.mem_cons_self), ?_⟩
    rwa [htaken]
  · obtain ⟨hvisited, hall⟩ := hok summary hs
    have hlength : files.length = summary.modules.length := by
      rw [← hvisited, List.length_map, hall.length_eq]
    have hzip : run.2.requests = (List.zipWith (requestsFor setup) files summary.modules).flatten := by
      rw [← hvisited, ← asked_of_finishes hasked hall fun v hv => setup_of_mem_visits hv]
      exact hrequests
    refine ⟨hvisited, hall, hzip, ?_, ?_⟩
    · rw [hzip, length_requestsFor setup hlength]
    · rw [hzip, clientDirs_requestsFor setup hlength]
      have hnodup : summary.modules.Nodup := nodup_names hall List.nodup_nil
      have hflip : List.Forall₂ (fun ns v => Visit.finishes v ns) summary.modules vs := List.Forall₂.flip hall
      have hrelative : ∀ ns ∈ summary.modules, Path.isAbsolute ns = false := fun ns hns => by
        obtain ⟨v, -, hv⟩ := exists_of_mem_forall₂ hflip hns
        exact hv.isRelative
      exact hnodup.map_on fun a ha b hb => eq_of_join_eq (hrelative a ha) (hrelative b hb)

end

def repeatedFiles : FileSystem :=
  small [["t"], ["idl"]] [(["a.thrift", "idl"], "namespace js a\n"), (["b.thrift", "idl"], "namespace js a\n"),
    (["c.thrift", "idl"], "namespace js c\n")]

def repeatedMade : FileSystem := (FileSystem.runOn repeatedFiles (Tree.initialise pairSettings.output)).2

def repeatedStart : FileSystem := (FileSystem.runOn repeatedMade (FileSystem.makeDir pairScratch)).2

/-- A run stops at the namespace that is taken; the requests are those for the first source. -/
theorem generate_requests_repeated :
    let setup : Setup := ⟨pairSettings, writing pairPlan, ⟨pairSettings.output⟩, pairScratch, ⟨["idl".toList]⟩⟩
    let files := ["idl/a.thrift".toList, "idl/b.thrift".toList, "idl/c.thrift".toList]
    let vs := visits setup [] files ⟨repeatedStart, [], []⟩
    let run := runFrom (generate pairSettings (writing pairPlan) pairScratch) repeatedFiles
    run.1 = .error (.repeated ['a'] "idl/b.thrift".toList) ∧ vs.map Visit.file <+: files ∧ vs.length = 2 ∧
      (∃ v, vs.getLast? = some v ∧ ∀ ns, ¬v.finishes ns) ∧
      ∃ asked, List.Forall₂ Visit.Asks vs asked ∧ asked.flatten = requestsFor setup "idl/a.thrift".toList ['a'] := by
  intro setup files vs run
  have htree : Tree.initialise pairSettings.output repeatedFiles = .ok ⟨pairSettings.output⟩ repeatedMade :=
    FileSystem.eq_ok_of_runOn (by decide +kernel)
  have hscratch : FileSystem.makeDir pairScratch repeatedMade = .ok () repeatedStart :=
    FileSystem.eq_ok_of_runOn (by decide +kernel)
  have hlength : vs.length = 2 := by decide +kernel
  obtain ⟨⟨hlead, hlast⟩, -, ⟨asked, hasked, hrequests⟩, -⟩ :=
    @generate_requests pairSettings (writing pairPlan) pairScratch repeatedFiles repeatedMade repeatedStart
      ⟨pairSettings.output⟩ ⟨["idl".toList]⟩ files htree hscratch (by decide +kernel) (by decide +kernel)
  refine ⟨by decide +kernel, hlead, hlength, hlast.resolve_left fun hall => ?_, asked, hasked, ?_⟩
  · have hthree := congrArg List.length hall
    rw [List.length_map] at hthree
    exact absurd (hlength.symm.trans hthree) (by decide)
  · rw [← hrequests]
    decide +kernel

end ThriftModules.Run
