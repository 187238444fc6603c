import Mathlib.Data.List.Forall2
import ThriftModules.Proofs.Script.Parts

/-!
# Scripts one after the other

* `StartsAfresh` : texts that do not go on with what stands in front of them;
* `IsRead` : a text that the scanner reads as given statements, whatever starts afresh behind it; a statement with its
  semicolon (`isRead_statement`) and a statement that ends at a brace (`isRead_brace`);
* `Yields` : a text that is read as given assignments, each as a relation to a label describes it (`Yields.append`,
  `Yields.flatMap`);
* `Yields.assignments` : the assignments of such a script.
-/

namespace ThriftModules.Script

set_option autoImplicit false

/-- A text that neither makes a comment with a slash in front of it nor goes on with a statement behind a brace. -/
structure StartsAfresh (t : Text) : Prop where
  noComment : opensComment t = false
  endsBlock : endsBlock t = true

/-- A text that is read as the statements `ss` where no statement is open, if what follows starts afresh. -/
structure IsRead (t : Text) (ss : List Text) : Prop where
  fresh : ∀ {rest : Text}, StartsAfresh rest → StartsAfresh (t ++ rest)
  run : ∀ {s : Scanner} {rest : Text}, s.depth = 0 → s.current = none → StartsAfresh rest →
    ∃ offset, (s.run (marksFrom .code (t ++ rest))).map Span.text =
      ss ++ ((⟨offset, 0, none⟩ : Scanner).run (marksFrom .code rest)).map Span.text

theorem startsAfresh_nil : StartsAfresh [] := ⟨rfl, rfl⟩

theorem IsRead.nil : IsRead [] [] := by
  refine ⟨fun h => h, ?_⟩
  rintro ⟨offset, depth, current⟩ rest rfl rfl -
  exact ⟨offset, rfl⟩

theorem IsRead.append {t u : Text} {ss ts : List Text} (ht : IsRead t ss) (hu : IsRead u ts) :
    IsRead (t ++ u) (ss ++ ts) := by
  constructor
  · intro rest h
    rw [List.append_assoc]
    exact ht.fresh (hu.fresh h)
  · intro s rest h0 hn h
    obtain ⟨middle, hmiddle⟩ := ht.run h0 hn (hu.fresh h)
    obtain ⟨last, hlast⟩ := hu.run (s := ⟨middle, 0, none⟩) rfl rfl h
    exact ⟨last, by rw [List.append_assoc, hmiddle, hlast, List.append_assoc]⟩

theorem IsRead.spans_append {t rest : Text} {ss : List Text} (h : IsRead t ss) (hrest : StartsAfresh rest) :
    ∃ offset, (spans (t ++ rest)).map Span.text =
      ss ++ ((⟨offset, 0, none⟩ : Scanner).run (marksFrom .code rest)).map Span.text :=
  h.run rfl rfl hrest

/-- A statement with its semicolon, with blanks and comments behind it. -/
theorem isRead_statement {ps : List Piece} {gap : Text} (hps : IsStatement ps) (hr : reads ps [] = true)
    (hgap : IsSpacing gap) (hfresh : ∀ rest, StartsAfresh (texts ps ++ rest)) :
    IsRead (texts ps ++ ';' :: gap) [texts ps] := by
  obtain ⟨gs, rfl, hgr, hspace⟩ := hgap
  refine ⟨fun {rest} _ => by rw [List.append_assoc]; exact hfresh _, ?_⟩
  intro s rest h0 hn hrest
  have htext : texts ps ++ ';' :: texts gs ++ rest = texts (ps ++ .code ';' :: gs) ++ rest := by
    rw [texts_append, texts_cons]
    rfl
  have hreads : reads (ps ++ .code ';' :: gs) rest = true := by
    refine reads_append.2 ⟨reads_of_reads_nil hr rfl, reads_cons.2 ⟨rfl, ?_, reads_of_reads_nil hgr hrest.noComment⟩⟩
    intro e
    cases e
  have hmarks : (ps ++ Piece.code ';' :: gs).flatMap Piece.marks ++ marksFrom .code rest =
      ps.flatMap Piece.marks ++ ⟨';', .code⟩ :: (gs.flatMap Piece.marks ++ marksFrom .code rest) := by
    simp [Piece.marks]
  obtain ⟨offset, hrun⟩ := Scanner.run_statement hps h0 hn (gs.flatMap Piece.marks ++ marksFrom .code rest)
  rw [htext, marksFrom_texts hreads, hmarks, hrun, Scanner.run_spacing hspace rfl]
  exact ⟨_, rfl⟩

theorem Scanner.run_of_isPlain {s : Scanner} {ps : List Piece} (hps : ∃ c r, ps = .code c :: r ∧ isPlain c = true)
    (rest : List Mark) : s.run (ps.flatMap Piece.marks ++ rest) = s.started.run (ps.flatMap Piece.marks ++ rest) := by
  obtain ⟨c, r, rfl, hc⟩ := hps
  simp only [isPlain, Bool.and_eq_true, Bool.not_eq_true', bne_iff_ne] at hc
  obtain ⟨⟨⟨-, hclose⟩, hsemi⟩, hblank⟩ := hc
  rw [List.flatMap_cons, List.append_assoc]
  exact run_started (p := .code c) hblank (fun d e => by cases e; exact ⟨hclose, hsemi⟩) _

/-- The brace of the outermost bracket completes a statement where what follows does not go on with it. -/
theorem Scanner.run_block {s : Scanner} {ps : List Piece} (hps : ∃ c r, ps = .code c :: r ∧ isPlain c = true)
    (h0 : s.depth = 0) (hn : s.current = none) {rest : List Mark}
    (hin : within 0 ps ('}' :: rest.map Mark.char) = some 1) (hrest : endsBlock (rest.map Mark.char) = true) :
    ∃ offset, s.run (ps.flatMap Piece.marks ++ ⟨'}', .code⟩ :: rest) =
      ⟨s.offset, texts ps ++ ['}']⟩ :: (⟨offset, 0, none⟩ : Scanner).run rest := by
  have hwithin : within s.started.depth ps ((⟨'}', .code⟩ :: rest).map Mark.char) = some 1 := by
    rw [show s.started.depth = 0 from h0]
    exact hin
  have hopen : ({ s.started with depth := 1 }.passed (texts ps)).current = some ⟨s.offset, (texts ps).reverse⟩ := by
    simp [passed, started, hn]
  rw [run_of_isPlain hps, run_within hwithin rfl, run_brace hopen (Nat.le_refl 1) hrest, List.reverse_reverse]
  exact ⟨_, rfl⟩

theorem isRead_brace {ps : List Piece} (hps : ∃ c r, ps = .code c :: r ∧ isPlain c = true) (hr : reads ps [] = true)
    (hin : ∀ rest, within 0 ps rest = some 1) (hfresh : ∀ rest, StartsAfresh (texts ps ++ rest)) :
    IsRead (texts ps ++ ['}', '\n']) [texts ps ++ ['}']] := by
  refine ⟨fun {rest} _ => by rw [List.append_assoc]; exact hfresh _, ?_⟩
  intro s rest h0 hn hrest
  have hlook : endsBlock (((⟨'\n', .code⟩ : Mark) :: marksFrom .code rest).map Mark.char) = true := by
    rw [List.map_cons, map_char_marksFrom, endsBlock_cons_blank (by decide)]
    exact hrest.endsBlock
  have hmarks : marksFrom .code (texts ps ++ ['}', '\n'] ++ rest) =
      ps.flatMap Piece.marks ++ ⟨'}', .code⟩ :: ⟨'\n', .code⟩ :: marksFrom .code rest := by
    have hend : reads (codes ['}', '\n']) rest = true := reads_codes (by decide) rest
    rw [List.append_assoc, marksFrom_texts (reads_of_reads_nil hr rfl)]
    exact congrArg _ (marksFrom_texts hend)
  obtain ⟨offset, hrun⟩ := Scanner.run_block hps h0 hn (hin _) hlook
  have hskip : (⟨offset, 0, none⟩ : Scanner).run (⟨'\n', .code⟩ :: marksFrom .code rest) =
      (⟨offset + 1, 0, none⟩ : Scanner).run (marksFrom .code rest) := by
    have hblank : [Piece.code '\n'].all Piece.isSpacing = true := by decide
    exact Scanner.run_spacing hblank rfl (marksFrom .code rest)
  exact ⟨offset + 1, by rw [hmarks, hrun, hskip]; rfl⟩

/-! ## Open statements -/

theorem Scanner.exists_of_run {s : Scanner} {o : OpenStatement} (ho : s.current = some o) (ms : List Mark) :
    ∃ t spans, s.run ms = ⟨o.start, o.read.reverse ++ t⟩ :: spans := by
  induction ms generalizing s o with
  | nil => exact ⟨[], [], by simp [run, pending, ho, OpenStatement.span]⟩
  | cons m ms ih =>
    have hgoes : ∀ {s' : Scanner}, s.step m ms = ([], s') → s'.current = some ⟨o.start, m.char :: o.read⟩ →
        ∃ t spans, s.run (m :: ms) = ⟨o.start, o.read.reverse ++ t⟩ :: spans := by
      intro s' hstep hs'
      obtain ⟨t, spans, hrun⟩ := ih hs'
      rw [run, hstep]
      exact ⟨m.char :: t, spans, by simp [hrun]⟩
    have hends : ∀ {t : Text}, (s.step m ms).1 = [⟨o.start, o.read.reverse ++ t⟩] →
        ∃ t spans, s.run (m :: ms) = ⟨o.start, o.read.reverse ++ t⟩ :: spans := by
      intro t hstep
      rw [run, hstep]
      exact ⟨t, _, rfl⟩
    obtain ⟨c, role⟩ := m
    cases role with
    | comment => exact hgoes rfl (by simp [continued, ho])
    | literal => exact hgoes rfl (by simp [extended, ho])
    | code =>
      have hstep : s.step ⟨c, .code⟩ ms = s.stepCode c ms := rfl
      rw [stepCode] at hstep
      split at hstep
      · exact hgoes hstep (by simp [extended, ho])
      split at hstep
      · split at hstep
        · exact hends (t := [c]) (by rw [hstep]; simp [continued, ho, OpenStatement.span])
        · exact hgoes hstep (by simp [continued, ho])
      split at hstep
      · exact hends (t := []) (by rw [hstep]; simp [pending, ho, OpenStatement.span])
      split at hstep
      · exact hgoes hstep (by simp [continued, ho])
      · exact hgoes hstep (by simp [extended, ho])

/-- A text that starts a statement and does not end it. -/
def StaysOpen (t : Text) : Prop :=
  ∃ ps d, texts ps = t ∧ (∃ c r, ps = .code c :: r ∧ isPlain c = true) ∧ (∀ rest, reads ps rest = true) ∧
    ∀ rest, within 0 ps rest = some d

namespace StaysOpen

variable {t : Text}

theorem run (h : StaysOpen t) {s : Scanner} (h0 : s.depth = 0) (hn : s.current = none) (rest : Text) :
    ∃ d, s.run (marksFrom .code (t ++ rest)) =
      (⟨s.offset + Text.byteLength t, d, some ⟨s.offset, t.reverse⟩⟩ : Scanner).run (marksFrom .code rest) := by
  obtain ⟨ps, d, rfl, hplain, hreads, hin⟩ := h
  have hwithin : within s.started.depth ps ((marksFrom .code rest).map Mark.char) = some d := by
    rw [show s.started.depth = 0 from h0]
    exact hin _
  refine ⟨d, ?_⟩
  rw [marksFrom_texts (hreads rest), Scanner.run_of_isPlain hplain, Scanner.run_within hwithin rfl]
  simp [Scanner.passed, Scanner.started, hn]

theorem exists_run (h : StaysOpen t) {s : Scanner} (h0 : s.depth = 0) (hn : s.current = none) (rest : Text) :
    ∃ u ss, (s.run (marksFrom .code (t ++ rest))).map Span.text = (t ++ u) :: ss := by
  obtain ⟨d, hrun⟩ := h.run h0 hn rest
  obtain ⟨u, spans, hspans⟩ := Scanner.exists_of_run (s := ⟨_, d, _⟩) rfl (marksFrom .code rest)
  exact ⟨u, spans.map Span.text, by rw [hrun, hspans, List.map_cons, List.reverse_reverse]⟩

theorem run_end (h : StaysOpen t) {s : Scanner} (h0 : s.depth = 0) (hn : s.current = none) :
    (s.run (marksFrom .code t)).map Span.text = [t] := by
  obtain ⟨d, hrun⟩ := h.run h0 hn []
  rw [List.append_nil] at hrun
  rw [hrun]
  simp [marksFrom, Scanner.run, Scanner.pending, OpenStatement.span]

/-- A character that starts a statement and is no bracket goes on with one. -/
theorem concat (h : StaysOpen t) {c : Char} (hc : isQuiet c = true) : StaysOpen (t ++ [c]) := by
  obtain ⟨ps, d, rfl, ⟨x, r, rfl, hx⟩, hreads, hin⟩ := h
  have hquiet : ∀ x ∈ [c], isQuiet x = true := fun x hx => List.mem_singleton.1 hx ▸ hc
  refine ⟨.code x :: r ++ codes [c], d, by rw [texts_append, texts_codes], ⟨x, _, rfl, hx⟩, fun rest => ?_,
    fun rest => ?_⟩
  · exact reads_append.2 ⟨hreads _, reads_codes_of_isQuiet hquiet rest⟩
  · exact within_append.2 ⟨d, hin _, within_of_depthInside? (depthInside?_codes_of_isQuiet hquiet d) rest⟩

end StaysOpen

/-! ## Assignments -/

/-- The assignment that a raw statement makes below `ns`, if it makes one. -/
def parseRaw? (ns : Namespace) (statement : Text) : Option Assignment := Assignment.parse? ns (Text.trim statement)

theorem parseRaw?_of_trim {ns : Namespace} {x y : Text} (h : Text.trim x = y) :
    parseRaw? ns x = Assignment.parse? ns y := by
  rw [parseRaw?, h]

theorem assignments_eq_filterMap (script : Text) (ns : Namespace) :
    assignments script ns = ((spans script).map Span.text).filterMap (parseRaw? ns) := by
  have hempty : Assignment.parse? ns [] = none := by
    cases ns <;> rfl
  rw [assignments, statements, List.filterMap_filter, List.filterMap_map, List.filterMap_map]
  refine List.filterMap_congr fun sp _ => ?_
  by_cases hsp : Text.trim sp.text = []
  · simp [parseRaw?, hsp, hempty]
  · simp [parseRaw?, hsp]

section
variable {α β : Type} {ns : Namespace} {R : α → Assignment → Prop}

/-- A text that is read as assignments below `ns`, one for each of the labels as `R` describes it. -/
def Yields (ns : Namespace) (R : α → Assignment → Prop) (t : Text) (labels : List α) : Prop :=
  ∃ ss, IsRead t ss ∧ List.Forall₂ R labels (ss.filterMap (parseRaw? ns))

theorem Yields.nil : Yields ns R [] [] := ⟨[], .nil, .nil⟩

theorem Yields.append {t u : Text} {ks ls : List α} (ht : Yields ns R t ks) (hu : Yields ns R u ls) :
    Yields ns R (t ++ u) (ks ++ ls) := by
  obtain ⟨ss, hss, hks⟩ := ht
  obtain ⟨ts, hts, hls⟩ := hu
  refine ⟨ss ++ ts, hss.append hts, ?_⟩
  rw [List.filterMap_append]
  exact List.rel_append hks hls

theorem Yields.flatMap {f : β → Text} {g : β → List α} {xs : List β} (h : ∀ x ∈ xs, Yields ns R (f x) (g x)) :
    Yields ns R (xs.flatMap f) (xs.flatMap g) := by
  induction xs with
  | nil => exact .nil
  | cons x xs ih => exact (h x List.mem_cons_self).append (ih fun y hy => h y (List.mem_cons_of_mem x hy))

theorem Yields.assignments {t : Text} {labels : List α} (h : Yields ns R t labels) :
    List.Forall₂ R labels (assignments t ns) := by
  obtain ⟨ss, hss, hlabels⟩ := h
  obtain ⟨offset, hspans⟩ := hss.spans_append startsAfresh_nil
  rw [assignments_eq_filterMap, ← List.append_nil t, hspans]
  simpa [marksFrom, Scanner.run, Scanner.pending] using hlabels

theorem filterMap_cons_toList (x : Text) (xs : List Text) :
    (x :: xs).filterMap (parseRaw? ns) = (parseRaw? ns x).toList ++ xs.filterMap (parseRaw? ns) := by
  cases h : parseRaw? ns x with
  | none => exact List.filterMap_cons_none h
  | some a => exact List.filterMap_cons_some h

/-- Behind a text that is read so, a text that stays open takes in what follows it. -/
theorem Yields.assignments_open {t u rest : Text} {labels : List α} (h : Yields ns R t labels) (hu : StaysOpen u)
    (hfresh : StartsAfresh (u ++ rest)) :
    ∃ as v bs, List.Forall₂ R labels as ∧
      Script.assignments (t ++ (u ++ rest)) ns = as ++ ((parseRaw? ns (u ++ v)).toList ++ bs) := by
  obtain ⟨ss, hss, hlabels⟩ := h
  obtain ⟨offset, hspans⟩ := hss.spans_append hfresh
  obtain ⟨v, ts, hrun⟩ := hu.exists_run (s := ⟨offset, 0, none⟩) rfl rfl rest
  refine ⟨_, v, ts.filterMap (parseRaw? ns), hlabels, ?_⟩
  rw [assignments_eq_filterMap, hspans, hrun, List.filterMap_append, filterMap_cons_toList]

/-- At the end of a script, a text that stays open is the last statement. -/
theorem Yields.assignments_end {t u : Text} {labels : List α} (h : Yields ns R t labels) (hu : StaysOpen u)
    (hfresh : StartsAfresh u) :
    ∃ as, List.Forall₂ R labels as ∧ Script.assignments (t ++ u) ns = as ++ (parseRaw? ns u).toList := by
  obtain ⟨ss, hss, hlabels⟩ := h
  obtain ⟨offset, hspans⟩ := hss.spans_append hfresh
  have hrun := hu.run_end (s := ⟨offset, 0, none⟩) rfl rfl
  refine ⟨_, hlabels, ?_⟩
  rw [assignments_eq_filterMap, hspans, hrun, List.filterMap_append, filterMap_cons_toList, List.filterMap_nil,
    List.append_nil]

theorem Yields.of_none {t x : Text} (h : IsRead t [x]) (hx : parseRaw? ns x = none) : Yields ns R t [] :=
  ⟨[x], h, by rw [List.filterMap_cons_none hx]; exact .nil⟩

theorem Yields.of_some {t x : Text} {label : α} {a : Assignment} (h : IsRead t [x]) (hx : parseRaw? ns x = some a)
    (hr : R label a) : Yields ns R t [label] :=
  ⟨[x], h, by rw [List.filterMap_cons_some hx]; exact .cons hr .nil⟩

end

end ThriftModules.Script
