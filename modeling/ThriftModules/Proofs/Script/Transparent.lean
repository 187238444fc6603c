import ThriftModules.Proofs.Script.Cut
import ThriftModules.Proofs.Script.Uncommented

/-!
# Statements and comments

When the statements of a script are the same with its comments and without them.

* `GoesOn` : a text that a statement behind a brace takes in, other than a semicolon;
* `Takes.exists_uncommented` : without its comments, an open statement takes in the same lexemes, and what follows only
  where it goes on;
* `Cuts.uncommented_iff` : the cuts with and without comments, one statement after the other;
* `statements_uncommented_iff` : comments are transparent exactly if no statement goes on behind a comment that follows
  its brace, and none is made of comments.
-/

namespace ThriftModules.Text

set_option autoImplicit false

def dropBytes : Text → Nat → Text
  | t, 0 => t
  | [], _ + 1 => []
  | c :: t, n + 1 => dropBytes t (n + 1 - c.utf8Size)

theorem dropBytes_append (a b : Text) : dropBytes (a ++ b) (byteLength a) = b := by
  induction a with
  | nil => cases b <;> rfl
  | cons c a ih =>
    have hpos := c.utf8Size_pos
    obtain ⟨n, hn⟩ : ∃ n, c.utf8Size + byteLength a = n + 1 := Nat.exists_eq_succ_of_ne_zero (by omega)
    rw [List.cons_append, byteLength, hn, dropBytes, ← hn, Nat.add_sub_cancel_left, ih]

end ThriftModules.Text

namespace ThriftModules.Script

set_option autoImplicit false

/-! ## Going on -/

/-- A text that goes on with a statement behind a brace, other than by a semicolon. -/
def GoesOn (rest : Text) : Prop := endsBlock rest = false ∧ (Text.trimStart rest).head? ≠ some ';'

instance (rest : Text) : Decidable (GoesOn rest) := inferInstanceAs (Decidable (_ ∧ _))

theorem endsBlock_of_isBlank {t : Text} (h : ∀ c ∈ t, Text.isBlank c = true) : endsBlock t = true := by
  induction t with
  | nil => rfl
  | cons c t ih => rw [endsBlock_cons_blank (h c List.mem_cons_self), ih fun d hd => h d (List.mem_cons_of_mem c hd)]

theorem trimStart_blank_append {a : Text} (h : ∀ c ∈ a, Text.isBlank c = true) (t : Text) :
    Text.trimStart (a ++ t) = Text.trimStart t := List.dropWhile_append_of_pos h

theorem Takes.brace_goesOn {d : Nat} {ms rest : List Mark} (hd : d ≤ 1)
    (hgoes : endsBlock ((ms ++ rest).map Mark.char) = false) (h : Takes 0 ms rest) :
    Takes d (⟨'}', .code⟩ :: ms) rest := by
  have hdepth : Mark.depth d ⟨'}', .code⟩ = 0 := by
    show d - 1 = 0
    omega
  refine .step ?_ (hdepth ▸ h)
  rw [Mark.stops, hgoes, Bool.and_false]
  rfl

/-- A statement that goes on takes in a character that is not blank. -/
theorem GoesOn.exists_takes {ls : List Lexeme} (h : GoesOn (spelling ls)) :
    ∃ ks rest, ls = ks ++ rest ∧ Takes 0 (marked ks) (marked rest) ∧ ∃ c ∈ spelling ks, Text.isBlank c = false := by
  obtain ⟨ks, rest, rfl, htakes⟩ := Script.exists_takes 0 ls
  refine ⟨ks, rest, rfl, htakes, ?_⟩
  by_contra hno
  have hblank : ∀ c ∈ spelling ks, Text.isBlank c = true := by simpa using hno
  obtain ⟨hgoes, hsemi⟩ := h
  rw [spelling_append] at hgoes hsemi
  rcases htakes.boundary with hbrace | hnil | hhead
  · have hlast : '}' ∈ spelling ks := by
      rw [← map_char_marked]
      exact List.mem_map_of_mem (f := Mark.char) (List.mem_of_getLast? hbrace)
    exact absurd (hblank _ hlast) (by decide)
  · rw [← map_char_marked rest, hnil, List.map_nil, List.append_nil, endsBlock_of_isBlank hblank] at hgoes
    cases hgoes
  · obtain ⟨ms, hms⟩ := List.head?_eq_some_iff.1 hhead
    rw [← map_char_marked rest, hms, trimStart_blank_append hblank] at hsemi
    exact hsemi rfl

theorem exists_takes_semicolon {ls : List Lexeme} (hr : ReadsAs ls none)
    (h : (Text.trimStart (spelling ls)).head? = some ';') :
    ∃ (b : Text) (rest : List Lexeme), ls = b.map .code ++ rest ∧ Takes 0 (b.map (⟨·, .code⟩)) (marked rest) ∧
      ∀ c ∈ b, Text.isBlank c = true := by
  obtain ⟨b, hb, hblank⟩ := Text.exists_trimStart (spelling ls)
  obtain ⟨r, hr'⟩ := List.head?_eq_some_iff.1 h
  obtain ⟨ks, rfl, hks⟩ := exists_codes_of_spelling hb hr fun c hc => not_isQuote_of_isBlank (hblank c hc)
  obtain ⟨rest, rfl, -⟩ := exists_codes_of_spelling (a := [';']) (hks.trans hr') (readsAs_append.1 hr).2 (by decide)
  refine ⟨b, _, rfl, ?_, hblank⟩
  have htakes : Takes 0 [] (marked (.code ';' :: rest)) := .semicolon
  rw [← List.append_nil (b.map _)]
  exact htakes.inert_append (isInert_codes fun c hc => isQuiet_of_isBlank (hblank c hc))

/-! ## Trimmed statements -/

/-- The texts of stretches, trimmed, the empty ones left out. -/
def trimmedTexts (ss : List Span) : List Text := (ss.map (Text.trim ·.text)).filter (· ≠ [])

theorem trimmedTexts_cons (s : Span) (ss : List Span) :
    trimmedTexts (s :: ss) =
      if Text.trim s.text = [] then trimmedTexts ss else Text.trim s.text :: trimmedTexts ss := by
  rw [trimmedTexts, List.map_cons, List.filter_cons]
  by_cases h : Text.trim s.text = [] <;> simp [h, trimmedTexts]

theorem nil_notMem_trimmedTexts (ss : List Span) : [] ∉ trimmedTexts ss := by
  simp [trimmedTexts]

/-- Characters that leave no statement where none is open. -/
def IsIdle (ms rest : List Mark) : Prop :=
  ∀ o, trimmedTexts ((⟨o, 0, none⟩ : Scanner).run (ms ++ rest)) =
    trimmedTexts ((⟨o + Text.byteLength (ms.map Mark.char), 0, none⟩ : Scanner).run rest)

theorem trim_of_isBlank {t : Text} (h : ∀ c ∈ t, Text.isBlank c = true) : Text.trim t = [] := by
  have hnil := Text.trim_blank_append h (b := []) (List.forall_mem_nil _) []
  rwa [List.append_nil, List.append_nil] at hnil

/-- Blanks that an open statement would take in leave none: they are skipped, or they are a blank statement. -/
theorem isIdle_of_isBlank {b : Text} {rest : List Mark} (hb : ∀ c ∈ b, Text.isBlank c = true)
    (h : Takes 0 (b.map (⟨·, .code⟩)) rest) : IsIdle (b.map (⟨·, .code⟩)) rest := by
  induction b with
  | nil => exact fun o => rfl
  | cons c b ih =>
    intro o
    cases hstarts : Mark.starts ⟨c, .code⟩ with
    | true =>
      have hcut : IsCut ((c :: b).map (⟨·, .code⟩)) rest := ⟨⟨_, _, rfl, hstarts⟩, h⟩
      have hchars : ((c :: b).map (Mark.mk · .code)).map Mark.char = c :: b := by simp [Function.comp_def]
      rw [Scanner.run_cut rfl rfl hcut, trimmedTexts_cons, hchars, if_pos (trim_of_isBlank hb)]
    | false =>
      have hquiet : ∀ d ∈ [c], isQuiet d = true := fun d hd =>
        isQuiet_of_isBlank (List.mem_singleton.1 hd ▸ hb c List.mem_cons_self)
      have htail := ih (fun d hd => hb d (List.mem_cons_of_mem c hd)) (Takes.of_inert_append (isInert_codes hquiet) h)
      rw [List.map_cons, List.cons_append, Scanner.run_skips rfl rfl hstarts]
      have hnext := htail (o + c.utf8Size)
      rw [Nat.add_assoc] at hnext
      exact hnext

/-! ## Statements without comments -/

section
variable {qs rest : List Lexeme}

/-- How far a statement reaches into what follows it, of which it takes in `ks`: to a character that is not blank where
it goes on, and else over blanks at most that leave no statement. -/
def Reaches (ks rest : List Lexeme) : Prop :=
  (GoesOn (spelling (ks ++ rest)) ∧ ∃ c ∈ spelling ks, Text.isBlank c = false) ∨
    (¬GoesOn (spelling (ks ++ rest)) ∧ (∀ c ∈ spelling ks, Text.isBlank c = true) ∧ IsIdle (marked ks) (marked rest))

theorem reaches_nil (h : ¬GoesOn (spelling rest)) : Reaches [] rest :=
  .inr ⟨h, List.forall_mem_nil _, fun _ => rfl⟩

theorem exists_takes_brace {d : Nat} (hd : d ≤ 1) {ls : List Lexeme} (hr : ReadsAs ls none) :
    ∃ ks rest, ls = ks ++ rest ∧ Takes d (⟨'}', .code⟩ :: marked ks) (marked rest) ∧ Reaches ks rest := by
  cases hend : endsBlock (spelling ls) with
  | true =>
    have hno : ¬GoesOn (spelling ls) := fun hgo => by rw [hgo.1] at hend; cases hend
    refine ⟨[], ls, rfl, .brace hd ?_, reaches_nil hno⟩
    rwa [map_char_marked]
  | false =>
    have htakes : ∀ {ks rest}, ls = ks ++ rest → Takes 0 (marked ks) (marked rest) →
        Takes d (⟨'}', .code⟩ :: marked ks) (marked rest) := by
      rintro ks rest rfl h
      refine h.brace_goesOn hd ?_
      rwa [← marked_append, map_char_marked]
    by_cases hgo : GoesOn (spelling ls)
    · obtain ⟨ks, rest, hls, h, hblank⟩ := hgo.exists_takes
      exact ⟨ks, rest, hls, htakes hls h, .inl ⟨hls ▸ hgo, hblank⟩⟩
    · have hsemi : (Text.trimStart (spelling ls)).head? = some ';' := not_not.1 fun hne => hgo ⟨hend, hne⟩
      obtain ⟨b, rest, hls, h, hblank⟩ := exists_takes_semicolon hr hsemi
      have hidle := isIdle_of_isBlank hblank h
      rw [← marked_codes] at h hidle
      refine ⟨_, rest, hls, htakes hls h, .inr ⟨hls ▸ hgo, ?_, hidle⟩⟩
      rwa [spelling_codes]

theorem Mark.stops_uncommented {m : Mark} {d : Nat} {ls : List Lexeme} (hr : ReadsAs ls none)
    (h : m.stops d (spelling ls) = false) : m.stops d (spelling (ls.map Lexeme.uncommented)) = false := by
  refine Bool.eq_false_iff.2 fun hstops => Bool.eq_false_iff.1 h (Mark.stops_iff.2 ?_)
  refine (Mark.stops_iff.1 hstops).imp_right fun ⟨hbrace, hd, hend⟩ => ⟨hbrace, hd, ?_⟩
  by_contra hgoes
  rw [endsBlock_uncommented hr (Bool.eq_false_iff.2 hgoes)] at hend
  cases hend

/-- Without its comments, an open statement takes in the same lexemes, and what follows only where it goes on. -/
theorem Takes.exists_uncommented {d : Nat} (h : Takes d (marked qs) (marked rest)) (hr : ReadsAs (qs ++ rest) none) :
    ∃ ks rest', rest.map Lexeme.uncommented = ks ++ rest' ∧
      Takes d (marked (qs.map Lexeme.uncommented ++ ks)) (marked rest') ∧ Reaches ks rest' := by
  induction qs generalizing d with
  | nil =>
    rw [marked_nil] at h
    generalize hms : marked rest = ms at h
    cases h with
    | atEnd =>
      obtain rfl := marked_eq_nil hr hms
      exact ⟨[], [], rfl, .atEnd, reaches_nil (by decide)⟩
    | semicolon =>
      obtain ⟨ks, rfl⟩ := exists_code_of_marked (by decide) hr hms
      exact ⟨[], _, rfl, .semicolon, reaches_nil fun hgo => hgo.2 rfl⟩
  | cons l qs ih =>
    rw [List.cons_append] at hr
    obtain ⟨-, hqs⟩ := hr
    have hinert : (∀ m ∈ l.marks, m.isInert = true) → (∀ m ∈ l.uncommented.marks, m.isInert = true) →
        ∃ ks rest', rest.map Lexeme.uncommented = ks ++ rest' ∧
          Takes d (marked ((l :: qs).map Lexeme.uncommented ++ ks)) (marked rest') ∧ Reaches ks rest' := by
      intro hl hl'
      obtain ⟨ks, rest', hrest, htakes, hreaches⟩ := ih (h.of_inert_append hl) hqs
      exact ⟨ks, rest', hrest, htakes.inert_append hl', hreaches⟩
    cases l with
    | literal t => exact hinert (isInert_of_ne_code (by decide)) (isInert_of_ne_code (by decide))
    | comment t =>
      obtain ⟨c, hascii, hc⟩ := Lexeme.exists_uncommented_comment t
      refine hinert (isInert_of_ne_code (by decide)) fun m hm => ?_
      rw [hc] at hm
      rw [List.mem_singleton.1 hm]
      exact Mark.isInert_of_isQuiet (isQuiet_of_isBlank (Text.isBlank_of_isAsciiBlank hascii))
    | code c =>
      rw [marked_cons] at h
      generalize hms : marked qs = ms at h
      cases h with
      | brace hd hend =>
        obtain rfl := marked_eq_nil (readsAs_append.1 hqs).1 hms
        exact exists_takes_brace hd hqs.uncommented
      | step hm h =>
        subst hms
        obtain ⟨ks, rest', hrest, htakes, hreaches⟩ := ih h hqs
        refine ⟨ks, rest', hrest, .step ?_ htakes, hreaches⟩
        have hread : Mark.stops d ⟨c, .code⟩ (spelling (qs ++ rest)) = false := by
          rw [← map_char_marked, marked_append]
          exact hm
        have hleft := Mark.stops_uncommented hqs hread
        rw [List.map_append, hrest, ← List.append_assoc, ← map_char_marked, marked_append] at hleft
        exact hleft

end

/-! ## Statements with and without comments -/

theorem Lexeme.starts_uncommented {l : Lexeme} (h : l.starts = false) : l.uncommented.starts = false := by
  cases l with
  | code c => exact h
  | literal t => cases h
  | comment t =>
    obtain ⟨c, hascii, hc⟩ := exists_uncommented_comment t
    rw [hc, starts, Mark.starts, hascii]
    simp

theorem IsCut.uncommented {qs ks : List Lexeme} {rest rest' : List Mark} (h : IsCut (marked qs) rest)
    (hr : ReadsAs qs none) (htakes : Takes 0 (marked (qs.map Lexeme.uncommented ++ ks)) rest') :
    IsCut (marked (qs.map Lexeme.uncommented ++ ks)) rest' := by
  refine ⟨?_, htakes⟩
  obtain ⟨⟨m, ms, hms, hm⟩, -⟩ := h
  cases qs with
  | nil => cases hms
  | cons l qs =>
    cases l with
    | code c =>
      cases hms
      exact ⟨_, _, rfl, hm⟩
    | literal t =>
      obtain ⟨q, r, rfl, -⟩ := hr.1.exists_literal
      exact ⟨⟨q, .literal⟩, _, rfl, rfl⟩
    | comment t =>
      obtain ⟨r, rfl⟩ := hr.1.exists_comment
      cases hms
      cases hm

theorem trim_append_ne {t u : Text} (h : ∃ c ∈ u, Text.isBlank c = false) : Text.trim (t ++ u) ≠ Text.trim t := by
  obtain ⟨c, hc, hblank⟩ := h
  intro heq
  have hfilter := congrArg (List.filter (! Text.isBlank ·)) heq
  rw [Text.filter_trim, Text.filter_trim, List.filter_append] at hfilter
  have hnil := List.append_cancel_left (hfilter.trans (List.append_nil _).symm)
  have hmem : c ∈ u.filter (! Text.isBlank ·) := List.mem_filter.2 ⟨hc, by rw [hblank]; rfl⟩
  rw [hnil] at hmem
  cases hmem

theorem trim_ne_nil {t : Text} (h : ∃ c ∈ t, Text.isBlank c = false) : Text.trim t ≠ [] := trim_append_ne (t := []) h

theorem Takes.mem_of_goesOn {d : Nat} {qs rest : List Lexeme} (h : Takes d (marked qs) (marked rest))
    (hr : ReadsAs rest none) (hgo : GoesOn (spelling (rest.map Lexeme.uncommented))) : '}' ∈ spelling qs := by
  rcases h.boundary with hbrace | hnil | hsemi
  · rw [← map_char_marked]
    exact List.mem_map_of_mem (f := Mark.char) (List.mem_of_getLast? hbrace)
  · obtain rfl := marked_eq_nil hr hnil
    exact absurd hgo (by decide)
  · obtain ⟨ms, hms⟩ := List.head?_eq_some_iff.1 hsemi
    obtain ⟨ks, rfl⟩ := exists_code_of_marked (by decide) hr hms
    exact absurd rfl hgo.2

theorem starts_uncommented {gap : List Lexeme} (h : ∀ l ∈ gap, l.starts = false) :
    ∀ m ∈ marked (gap.map Lexeme.uncommented), m.starts = false := by
  intro m hm
  obtain ⟨l, hl, hm⟩ := List.mem_flatMap.1 hm
  obtain ⟨k, hk, rfl⟩ := List.mem_map.1 hl
  exact Lexeme.starts_marks (Lexeme.starts_uncommented (h k hk)) m hm

/-- The first statement of a script, and what is scanned for it without the comments. -/
theorem exists_run_uncommented {gap qs rest : List Lexeme} (hgap : ∀ l ∈ gap, l.starts = false)
    (hcut : IsCut (marked qs) (marked rest)) (hr : ReadsAs (qs ++ rest) none) (o : Nat) :
    ∃ p q ks rest', rest.map Lexeme.uncommented = ks ++ rest' ∧ Reaches ks rest' ∧
      (⟨o, 0, none⟩ : Scanner).run (marked ((gap ++ (qs ++ rest)).map Lexeme.uncommented)) =
        ⟨p, spelling (qs.map Lexeme.uncommented) ++ spelling ks⟩ ::
          (⟨q + Text.byteLength (spelling ks), 0, none⟩ : Scanner).run (marked rest') := by
  obtain ⟨ks, rest', hks, htakes, hreaches⟩ := hcut.takes.exists_uncommented hr
  have hcut' := hcut.uncommented (readsAs_append.1 hr).1.atEnd htakes
  have hskip := Scanner.run_gap (s := ⟨o, 0, none⟩) rfl rfl (starts_uncommented hgap)
    (marked (qs.map Lexeme.uncommented ++ ks) ++ marked rest')
  rw [Scanner.run_cut rfl rfl hcut', map_char_marked, map_char_marked, spelling_append, byteLength_append,
    ← Nat.add_assoc] at hskip
  refine ⟨_, _, ks, rest', hks, hreaches, Eq.trans ?_ hskip⟩
  rw [List.map_append, List.map_append, hks, ← List.append_assoc (qs.map _), marked_append, marked_append]

/-- The statements of what is left of a script, as the text of each statement is left, exactly if none goes on behind a
comment and none is empty without comments. -/
theorem Cuts.uncommented_iff {o p : Nat} {ls : List Lexeme} {ss : List Span} {b : Text} (h : Cuts o ls ss)
    (hr : ReadsAs ls none) (hb : Text.byteLength b = o) :
    trimmedTexts ((⟨p, 0, none⟩ : Scanner).run (marked (ls.map Lexeme.uncommented))) =
        (trimmedTexts ss).map (fun t => Text.trim (uncommented t)) ↔
      (∀ sp ∈ ss, ¬GoesOn (uncommented (Text.dropBytes (b ++ spelling ls) sp.stop))) ∧
        ∀ t ∈ trimmedTexts ss, Text.trim (uncommented t) ≠ [] := by
  induction h generalizing p b with
  | @last o gap hgap =>
    have hrun := Scanner.run_gap (s := ⟨p, 0, none⟩) rfl rfl (starts_uncommented hgap) []
    rw [List.append_nil] at hrun
    rw [hrun]
    simp [Scanner.run, Scanner.pending, Scanner.passed, trimmedTexts]
  | @next o gap qs rest ss hgap hcut h ih =>
    obtain ⟨-, hrest⟩ := readsAs_append.1 hr
    obtain ⟨hqs, htail⟩ := readsAs_append.1 hrest
    obtain ⟨i, j, ks, rest', hks, hreaches, hrun⟩ := exists_run_uncommented hgap hcut hrest p
    have hleft := uncommented_spelling hqs.atEnd
    have hall : b ++ spelling gap ++ spelling qs ++ spelling rest = b ++ spelling (gap ++ (qs ++ rest)) := by
      simp only [spelling_append, List.append_assoc]
    have hafter : Text.dropBytes (b ++ spelling (gap ++ (qs ++ rest)))
        (Span.stop ⟨o + Text.byteLength (spelling gap), spelling qs⟩) = spelling rest := by
      rw [← hall, Span.stop, ← hb, ← byteLength_append, ← byteLength_append, Text.dropBytes_append]
    have hnext := ih (p := j) (b := b ++ spelling gap ++ spelling qs) htail
      (by rw [byteLength_append, byteLength_append, hb])
    rw [hall, hks] at hnext
    rw [hrun, trimmedTexts_cons, trimmedTexts_cons, List.forall_mem_cons, hafter, uncommented_spelling htail, hks]
    rcases hreaches with ⟨hgo, hmore⟩ | ⟨hno, hblank, hidle⟩
    · -- the statement takes in more without the comment, so the texts differ
      have hbrace := trim_ne_nil ⟨'}', hcut.takes.mem_of_goesOn htail (hks ▸ hgo), by decide⟩
      have hlonger : Text.trim (spelling (qs.map Lexeme.uncommented) ++ spelling ks) ≠
          Text.trim (uncommented (Text.trim (spelling qs))) := by
        rw [trim_uncommented_trim, hleft]
        exact trim_append_ne hmore
      obtain ⟨c, hc, hblank⟩ := hmore
      rw [if_neg hbrace, if_neg (trim_ne_nil ⟨c, List.mem_append_right _ hc, hblank⟩), List.map_cons]
      exact ⟨fun heq => absurd (List.cons.inj heq).1 hlonger, fun hno => absurd hgo hno.1.1⟩
    · have htext : Text.trim (spelling (qs.map Lexeme.uncommented) ++ spelling ks) =
          Text.trim (uncommented (Text.trim (spelling qs))) := by
        rw [trim_uncommented_trim, hleft]
        exact Text.trim_blank_append (a := []) (List.forall_mem_nil _) hblank _
      have hidle' := hidle j
      rw [map_char_marked, ← marked_append] at hidle'
      rw [hidle'] at hnext
      rw [htext]
      by_cases hnil : Text.trim (spelling qs) = []
      · rw [if_pos hnil, hnil, if_pos (by decide)]
        simpa only [hno, not_false_eq_true, true_and] using hnext
      · rw [if_neg hnil, List.map_cons, List.forall_mem_cons]
        by_cases hleft' : Text.trim (uncommented (Text.trim (spelling qs))) = []
        · rw [if_pos hleft', hleft']
          refine ⟨fun heq => ?_, fun hno => absurd rfl hno.2.1⟩
          exact absurd (heq ▸ List.mem_cons_self) (nil_notMem_trimmedTexts _)
        · rw [if_neg hleft', List.cons.injEq]
          simpa only [hno, hleft', ne_eq, not_false_eq_true, true_and] using hnext

/-- Comments are transparent to the statements of a script exactly if no statement that ends at a brace would go on
behind the comments that follow it, and none is made of blanks and comments. -/
theorem statements_uncommented_iff (script : Text) :
    statements (uncommented script) = (statements script).map (fun t => Text.trim (uncommented t)) ↔
      (∀ sp ∈ spans script, ¬GoesOn (uncommented (Text.dropBytes script sp.stop))) ∧
        ∀ t ∈ statements script, Text.trim (uncommented t) ≠ [] := by
  obtain ⟨ls, rfl, hls⟩ := exists_lexemes script
  have hiff := (cuts_spans hls).uncommented_iff (p := 0) (b := []) hls rfl
  rw [List.nil_append, ← marks_spelling hls.uncommented, ← uncommented_spelling hls] at hiff
  exact hiff

/-- A comment in front of `else` makes two statements of one. -/
theorem statements_uncommented_else :
    let script := "if (a) \x7b x(); \x7d // otherwise\nelse \x7b y(); \x7d".toList
    (statements script = ["if (a) \x7b x(); \x7d".toList, "else \x7b y(); \x7d".toList] ∧
      statements (uncommented script) = ["if (a) \x7b x(); \x7d \n\nelse \x7b y(); \x7d".toList]) ∧
      statements (uncommented script) ≠ (statements script).map (fun t => Text.trim (uncommented t)) := by
  decide +kernel

end ThriftModules.Script
