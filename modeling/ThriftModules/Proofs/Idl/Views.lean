import Mathlib.Data.List.Infix
import ThriftModules.Proofs.Idl.Stretch

/-!
# The two views of a line

* `InLiteral` : the positions of a line that stand strictly inside a literal; the bare view has a blank there and
  agrees with the code view elsewhere (`getElem?_bareOf_of_inLiteral`, `getElem?_bareOf_of_not_inLiteral`);
* `uncommented`, `blanked` : a line without its comments, and with blanks for what its literals hold; both are read as
  they stand (`reads_uncommented`, `reads_blanked`);
* `scanLine_codeOf_kept`, `scanLine_bareOf_kept` : so the scanner leaves the code view as it is, with its literals, and
  the bare view character by character; `scanLines_codeOf`, `scanLines_bareOf` : the same of the lines of a file;
* `IsMarkerFree` : no comment starts anywhere in the bare view (`isMarkerFree_bareOf`);
* `views_aligned_and_fixed` : all of this for the lines of a file.
-/

namespace ThriftModules.Idl

set_option autoImplicit false

/-! ## Positions -/

/-- Position `i` of the two views of a line stands strictly inside a literal: behind the quote that opens it, and not
on the one that closes it. -/
def InLiteral (ss : List Stretch) (i : Nat) : Prop :=
  ∃ front quote body isClosed back, ss = front ++ .literal quote body isClosed :: back ∧
    (kept front).length < i ∧ i ≤ (kept front).length + body.length

theorem codeOf_literal (quote : Char) (body : Text) (isClosed : Bool) :
    codeOf (Stretch.literal quote body isClosed).cells = quote :: (body ++ Stretch.closing quote isClosed) := by
  show quote :: codeOf (body.map .hidden ++ (Stretch.closing quote isClosed).map .plain) = _
  rw [codeOf_append, codeOf_hidden, codeOf_plain]

theorem bareOf_literal (quote : Char) (body : Text) (isClosed : Bool) :
    bareOf (Stretch.literal quote body isClosed).cells =
      quote :: (List.replicate body.length ' ' ++ Stretch.closing quote isClosed) := by
  show quote :: bareOf (body.map .hidden ++ (Stretch.closing quote isClosed).map .plain) = _
  rw [bareOf_append, bareOf_hidden, bareOf_plain]

theorem length_bareOf (cells : List Cell) : (bareOf cells).length = cells.length := List.length_map _

section
variable {s : Stretch} {ss : List Stretch} {i : Nat}

theorem getElem?_bareOf_of_inLiteral (h : InLiteral ss i) : (bareOf (kept ss))[i]? = some ' ' := by
  obtain ⟨front, quote, body, isClosed, back, rfl, hlow, hhigh⟩ := h
  obtain ⟨j, rfl⟩ := Nat.exists_eq_add_of_lt hlow
  have hbare : bareOf (kept (front ++ .literal quote body isClosed :: back)) =
      bareOf (kept front) ++ quote :: (List.replicate body.length ' ' ++
        (Stretch.closing quote isClosed ++ bareOf (kept back))) := by
    rw [kept_append, kept_cons, bareOf_append, bareOf_append, bareOf_literal, List.cons_append, List.append_assoc]
  rw [hbare, List.getElem?_append_right (by rw [length_bareOf]; omega), length_bareOf]
  have hindex : (kept front).length + j + 1 - (kept front).length = j + 1 := by omega
  rw [hindex, List.getElem?_cons_succ, List.getElem?_append_left (by rw [List.length_replicate]; omega),
    List.getElem?_replicate, if_pos (by omega)]

theorem Stretch.getElem?_cells
    (h : ∀ quote body isClosed, s = .literal quote body isClosed → ¬(0 < i ∧ i ≤ body.length)) :
    (bareOf s.cells)[i]? = (codeOf s.cells)[i]? := by
  cases s with
  | char c => rfl
  | literal quote body isClosed =>
    rw [bareOf_literal, codeOf_literal]
    cases i with
    | zero => rfl
    | succ j =>
      have hbehind := h quote body isClosed rfl
      have hj : body.length ≤ j := by omega
      rw [List.getElem?_cons_succ, List.getElem?_cons_succ,
        List.getElem?_append_right (by rwa [List.length_replicate]), List.getElem?_append_right hj,
        List.length_replicate]
  | comment t => rfl
  | tail t => rfl

theorem getElem?_bareOf_of_not_inLiteral (h : ¬InLiteral ss i) :
    (bareOf (kept ss))[i]? = (codeOf (kept ss))[i]? := by
  induction ss generalizing i with
  | nil => rfl
  | cons s ss ih =>
    rw [kept_cons, bareOf_append, codeOf_append]
    by_cases hi : i < s.cells.length
    · rw [List.getElem?_append_left (by rwa [length_bareOf]),
        List.getElem?_append_left (by rwa [length_codeOf, length_bareOf])]
      refine Stretch.getElem?_cells fun quote body isClosed hs hinside => h ?_
      exact ⟨[], quote, body, isClosed, ss, by rw [hs]; rfl, by simpa using hinside.1, by simpa using hinside.2⟩
    · have hle : s.cells.length ≤ i := Nat.le_of_not_lt hi
      rw [List.getElem?_append_right (by rwa [length_bareOf]),
        List.getElem?_append_right (by rwa [length_codeOf, length_bareOf]), length_codeOf, length_bareOf]
      refine ih fun hinside => h ?_
      obtain ⟨front, quote, body, isClosed, back, rfl, hlow, hhigh⟩ := hinside
      have hlength : (kept (s :: front)).length = s.cells.length + (kept front).length := by
        rw [kept_cons, List.length_append]
      exact ⟨s :: front, quote, body, isClosed, back, rfl, by omega, by omega⟩

end

/-! ## The views as stretches -/

namespace Stretch

def uncommented : Stretch → List Stretch
  | comment _ => [char ' ']
  | tail _ => []
  | s => [s]

def blanked : Stretch → Stretch
  | literal quote body isClosed => literal quote (List.replicate body.length ' ') isClosed
  | s => s

end Stretch

def uncommented (ss : List Stretch) : List Stretch := ss.flatMap Stretch.uncommented

def blanked (ss : List Stretch) : List Stretch := ss.map Stretch.blanked

section
variable {ss : List Stretch} {inComment inComment' : Bool}

@[simp] theorem uncommented_cons (s : Stretch) (ss : List Stretch) :
    uncommented (s :: ss) = s.uncommented ++ uncommented ss := rfl

@[simp] theorem blanked_cons (s : Stretch) (ss : List Stretch) : blanked (s :: ss) = s.blanked :: blanked ss := rfl

theorem kept_uncommented (ss : List Stretch) : kept (uncommented ss) = kept ss := by
  induction ss with
  | nil => rfl
  | cons s ss ih =>
    rw [uncommented_cons, kept_append, ih, kept_cons]
    cases s <;> simp [Stretch.uncommented, Stretch.cells]

/-- The code view is the line without its comments. -/
theorem spelling_uncommented (ss : List Stretch) : spelling (uncommented ss) = codeOf (kept ss) := by
  induction ss with
  | nil => rfl
  | cons s ss ih =>
    rw [uncommented_cons, spelling_append, ih, kept_cons, codeOf_append]
    congr 1
    cases s with
    | literal quote body isClosed =>
      rw [codeOf_literal]
      simp [Stretch.uncommented, Stretch.text]
    | _ => rfl

/-- With blanks in its literals a line hides nothing: it keeps the bare view. -/
theorem kept_blanked (ss : List Stretch) : kept (blanked ss) = (bareOf (kept ss)).map .plain := by
  induction ss with
  | nil => rfl
  | cons s ss ih =>
    rw [blanked_cons, kept_cons, kept_cons, bareOf_append, List.map_append, ih]
    congr 1
    cases s with
    | literal quote body isClosed =>
      have hblank : Cell.hidden ' ' = Cell.plain ' ' := rfl
      rw [bareOf_literal, Stretch.blanked, Stretch.cells, List.map_cons, List.map_append, List.map_replicate,
        List.map_replicate, hblank]
    | _ => rfl

theorem head?_spelling_blanked (ss : List Stretch) : (spelling (blanked ss)).head? = (spelling ss).head? := by
  induction ss with
  | nil => rfl
  | cons s ss ih =>
    rw [blanked_cons, spelling_cons, spelling_cons, List.head?_append, List.head?_append, ih]
    cases s <;> rfl

/-- What a line keeps first is the first character of its text, or the blank of a comment. -/
theorem Reads.head?_kept {cell : Cell} (h : Reads ss inComment) (hcell : (kept ss).head? = some cell) :
    cell = .plain ' ' ∨ ∃ c, cell = .plain c ∧ (spelling ss).head? = some c := by
  cases h with
  | nil => cases hcell
  | char => exact .inr ⟨_, (Option.some.inj hcell).symm, rfl⟩
  | literal => exact .inr ⟨_, (Option.some.inj hcell).symm, rfl⟩
  | openLiteral => exact .inr ⟨_, (Option.some.inj hcell).symm, rfl⟩
  | comment => exact .inl (Option.some.inj hcell).symm
  | openComment => cases hcell
  | slashes => cases hcell
  | hash => cases hcell

/-- A slash in front of a view of a line makes no comment with it, if it makes none with the line: where a comment was
next to the slash, a blank or nothing is left. -/
theorem Reads.noMarker_view {view : Cell → Char} (hview : ∀ c, view (.plain c) = c) (h : Reads ss inComment)
    (hs : (spelling ss).head? ≠ some '/' ∧ (spelling ss).head? ≠ some '*') :
    ((kept ss).map view).head? ≠ some '/' ∧ ((kept ss).map view).head? ≠ some '*' := by
  have hne : ∀ d, d ≠ ' ' → (spelling ss).head? ≠ some d → ((kept ss).map view).head? ≠ some d := by
    intro d hd hsd he
    rw [List.head?_map] at he
    obtain ⟨cell, hcell, rfl⟩ := Option.map_eq_some_iff.1 he
    rcases h.head?_kept hcell with rfl | ⟨c, rfl, hc⟩
    · exact hd (hview ' ')
    · rw [hview] at hsd
      exact hsd hc
  exact ⟨hne '/' (by decide) hs.1, hne '*' (by decide) hs.2⟩

theorem Reads.blank (h : Reads ss inComment) : Reads (.char ' ' :: ss) inComment :=
  .char (by decide) (by decide) (fun hc => absurd hc (by decide)) h

theorem reads_uncommented (h : Reads ss inComment) : Reads (uncommented ss) false := by
  induction h with
  | nil => exact .nil
  | @char c ss _ noQuote noHash noMarker rest ih =>
    have hnext : c = '/' → (codeOf (kept ss)).head? ≠ some '/' ∧ (codeOf (kept ss)).head? ≠ some '*' :=
      fun hc => rest.noMarker_view (fun _ => rfl) (noMarker hc)
    rw [← spelling_uncommented] at hnext
    exact .char noQuote noHash hnext ih
  | literal isQuote inside _ ih => exact .literal isQuote inside ih
  | openLiteral isQuote inside => exact .openLiteral isQuote inside
  | comment _ _ ih => exact ih.blank
  | openComment => exact .nil
  | slashes => exact .nil
  | hash => exact .nil

theorem isInside_blanks {quote : Char} (h : isLiteralQuote quote = true) (isClosed : Bool) (n : Nat) :
    IsInside quote isClosed (List.replicate n ' ') := by
  have hne : ' ' ≠ quote := by rcases isLiteralQuote_cases h with rfl | rfl <;> decide
  induction n with
  | zero => exact .nil
  | succ n ih => exact .char hne (by decide) ih

/-- A line is read in the same way with blanks for what its literals hold. -/
theorem reads_blanked (h : Reads ss inComment) : Reads (blanked ss) inComment := by
  induction h with
  | nil => exact .nil
  | @char c ss _ noQuote noHash noMarker _ ih =>
    rw [← head?_spelling_blanked ss] at noMarker
    exact .char noQuote noHash noMarker ih
  | literal isQuote _ _ ih => exact .literal isQuote (isInside_blanks isQuote _ _) ih
  | openLiteral isQuote _ => exact .openLiteral isQuote (isInside_blanks isQuote _ _)
  | comment noEnd _ ih => exact .comment noEnd ih
  | openComment noEnd => exact .openComment noEnd
  | slashes => exact .slashes
  | hash => exact .hash

/-! ## The scan of the views -/

theorem scanLine_codeOf_kept (h : Reads ss inComment) : scanLine .code (codeOf (kept ss)) = ⟨kept ss, false⟩ := by
  rw [← spelling_uncommented, scanLine_of_reads (reads_uncommented h), kept_uncommented]

theorem scanLine_bareOf_kept (h : Reads ss inComment) :
    scanLine .code (bareOf (kept ss)) = ⟨(bareOf (kept ss)).map .plain, false⟩ := by
  have hscan := scanLine_codeOf_kept (reads_blanked h)
  rwa [kept_blanked, codeOf_plain] at hscan

/-- No comment starts in `t`, wherever its literals stand. -/
def IsMarkerFree (t : Text) : Prop := '#' ∉ t ∧ ¬"//".toList <:+: t ∧ ¬"/*".toList <:+: t

theorem IsMarkerFree.cons {c : Char} {t : Text} (hhash : c ≠ '#')
    (hslash : c = '/' → t.head? ≠ some '/' ∧ t.head? ≠ some '*') (h : IsMarkerFree t) : IsMarkerFree (c :: t) := by
  have hprefix : ∀ d, (c = '/' → t.head? ≠ some d) → ¬['/', d] <+: c :: t := by
    rintro d hd ⟨r, hr⟩
    obtain ⟨rfl, rfl⟩ := List.cons.inj hr
    exact hd rfl rfl
  refine ⟨?_, ?_, ?_⟩
  · rw [List.mem_cons]
    rintro (he | hmem)
    · exact hhash he.symm
    · exact h.1 hmem
  · rw [List.infix_cons_iff]
    rintro (hp | hinfix)
    · exact hprefix '/' (fun hc => (hslash hc).1) hp
    · exact h.2.1 hinfix
  · rw [List.infix_cons_iff]
    rintro (hp | hinfix)
    · exact hprefix '*' (fun hc => (hslash hc).2) hp
    · exact h.2.2 hinfix

theorem isMarkerFree_nil : IsMarkerFree [] := ⟨by simp, by simp, by simp⟩

theorem IsMarkerFree.append {t u : Text} (ht : ∀ c ∈ t, c ≠ '#' ∧ c ≠ '/') (h : IsMarkerFree u) :
    IsMarkerFree (t ++ u) := by
  induction t with
  | nil => exact h
  | cons c t ih =>
    obtain ⟨⟨hhash, hslash⟩, hrest⟩ := List.forall_mem_cons.1 ht
    exact .cons hhash (fun hc => absurd hc hslash) (ih hrest)

theorem isMarkerFree_literal {quote : Char} {u : Text} (hquote : isLiteralQuote quote = true) (n : Nat)
    (isClosed : Bool) (h : IsMarkerFree u) :
    IsMarkerFree (quote :: (List.replicate n ' ' ++ Stretch.closing quote isClosed) ++ u) := by
  have hne : quote ≠ '#' ∧ quote ≠ '/' := by rcases isLiteralQuote_cases hquote with rfl | rfl <;> decide
  refine .append (fun c hc => ?_) h
  rcases List.mem_cons.1 hc with rfl | hc
  · exact hne
  rcases List.mem_append.1 hc with hc | hc
  · rw [List.eq_of_mem_replicate hc]
    decide
  · cases isClosed with
    | true =>
      rw [List.mem_singleton.1 hc]
      exact hne
    | false => cases hc

theorem isMarkerFree_bareOf (h : Reads ss inComment) : IsMarkerFree (bareOf (kept ss)) := by
  induction h with
  | nil => exact isMarkerFree_nil
  | char noQuote noHash noMarker rest ih =>
    exact .cons noHash (fun hc => rest.noMarker_view (fun _ => rfl) (noMarker hc)) ih
  | literal isQuote _ _ ih =>
    rw [kept_cons, bareOf_append, bareOf_literal]
    exact isMarkerFree_literal isQuote _ _ ih
  | openLiteral isQuote _ =>
    rw [kept_cons, bareOf_append, bareOf_literal]
    exact isMarkerFree_literal isQuote _ _ isMarkerFree_nil
  | comment _ _ ih => exact .cons (by decide) (fun hc => absurd hc (by decide)) ih
  | openComment => exact isMarkerFree_nil
  | slashes => exact isMarkerFree_nil
  | hash => exact isMarkerFree_nil

end

/-! ## The lines of a file -/

section
variable {inComment inComment' : Bool} {lines : List Text} {readings : List (List Stretch)}

/-- The code view is read as the line without its comments, wherever the comments start and end. -/
theorem readsLine_uncommented {ss : List Stretch} (h : ReadsLine inComment ss inComment') :
    Reads (uncommented ss) false := by
  cases h with
  | code reads => exact reads_uncommented reads
  | closes _ rest => exact (reads_uncommented rest).blank
  | stays => exact .nil

theorem readsLines_uncommented (h : ReadsLines inComment lines readings) :
    ReadsLines false (readings.map fun ss => codeOf (kept ss)) (readings.map uncommented) := by
  induction h with
  | nil => exact .nil
  | @cons _ _ ss _ _ line _ ih =>
    rw [List.map_cons, List.map_cons, ← spelling_uncommented ss]
    exact .cons (.code (readsLine_uncommented line)) ih

theorem ReadsLines.exists_readsLine (h : ReadsLines inComment lines readings) {ss : List Stretch}
    (hmem : ss ∈ readings) : ∃ before behind, ReadsLine before ss behind := by
  induction h with
  | nil => cases hmem
  | cons line _ ih =>
    rcases List.mem_cons.1 hmem with rfl | hmem
    · exact ⟨_, _, line⟩
    · exact ih hmem

theorem exists_reads_of_mem_scanLines {cells : List Cell} (h : cells ∈ scanLines inComment lines) :
    ∃ ss, Reads ss false ∧ kept ss = cells := by
  obtain ⟨readings, hreads⟩ := exists_readsLines inComment lines
  rw [scanLines_of_readsLines hreads] at h
  obtain ⟨ss, hss, rfl⟩ := List.mem_map.1 h
  obtain ⟨before, behind, hline⟩ := hreads.exists_readsLine hss
  exact ⟨_, readsLine_uncommented hline, kept_uncommented ss⟩

section
variable {cells : List Cell}

theorem scanLine_codeOf (h : cells ∈ scanLines inComment lines) : scanLine .code (codeOf cells) = ⟨cells, false⟩ := by
  obtain ⟨ss, hss, rfl⟩ := exists_reads_of_mem_scanLines h
  exact scanLine_codeOf_kept hss

theorem scanLine_bareOf (h : cells ∈ scanLines inComment lines) :
    scanLine .code (bareOf cells) = ⟨(bareOf cells).map .plain, false⟩ := by
  obtain ⟨ss, hss, rfl⟩ := exists_reads_of_mem_scanLines h
  exact scanLine_bareOf_kept hss

theorem isMarkerFree_of_mem_scanLines (h : cells ∈ scanLines inComment lines) : IsMarkerFree (bareOf cells) := by
  obtain ⟨ss, hss, rfl⟩ := exists_reads_of_mem_scanLines h
  exact isMarkerFree_bareOf hss

end

theorem scanLines_map {cells : List (List Cell)} {view : List Cell → Text} {f : List Cell → List Cell}
    (h : ∀ line ∈ cells, scanLine .code (view line) = ⟨f line, false⟩) :
    scanLines false (cells.map view) = cells.map f := by
  induction cells with
  | nil => rfl
  | cons line cells ih =>
    obtain ⟨hline, hrest⟩ := List.forall_mem_cons.1 h
    have hentry : entryState false = .code := rfl
    rw [List.map_cons, scanLines, hentry, hline, ih hrest, List.map_cons]

theorem scanLines_codeOf (inComment : Bool) (lines : List Text) :
    scanLines false ((scanLines inComment lines).map codeOf) = scanLines inComment lines :=
  (scanLines_map fun _ h => scanLine_codeOf h).trans (List.map_id' _)

theorem scanLines_bareOf (inComment : Bool) (lines : List Text) :
    scanLines false ((scanLines inComment lines).map bareOf) =
      (scanLines inComment lines).map fun line => (bareOf line).map .plain :=
  scanLines_map fun _ h => scanLine_bareOf h

end

/-- The two views of the lines of a file.

There is one pair of views for each line, of one length. The views agree but strictly inside the literals of the line,
where the bare view has a blank, and the code view is read as the line without its comments. Scanned again, the code
view gives itself and the same bare view, and the bare view gives itself twice. No comment starts in a bare line, hence
none outside the literals of a code line, and no line of either view leaves a comment open for the next. -/
theorem views_aligned_and_fixed (lines : List Text) :
    let cells := scanLines false lines
    let code := cells.map codeOf
    let bare := cells.map bareOf
    (code.length = lines.length ∧ bare.length = lines.length ∧
      ∀ line ∈ cells, (codeOf line).length = (bareOf line).length) ∧
    ((∃ readings, ReadsLines false lines readings) ∧ ∀ readings, ReadsLines false lines readings →
      cells = readings.map kept ∧ ReadsLines false code (readings.map uncommented) ∧
      ∀ ss ∈ readings, ∀ i,
        (InLiteral ss i → (bareOf (kept ss))[i]? = some ' ') ∧
        (¬InLiteral ss i → (bareOf (kept ss))[i]? = (codeOf (kept ss))[i]?)) ∧
    ((scanLines false code).map codeOf = code ∧ (scanLines false code).map bareOf = bare) ∧
    ((scanLines false bare).map codeOf = bare ∧ (scanLines false bare).map bareOf = bare) ∧
    (∀ line ∈ bare, IsMarkerFree line) ∧ ∀ line ∈ code ++ bare, (scanLine .code line).inComment = false := by
  intro cells code bare
  have hscanBare : scanLines false bare = cells.map fun line => (bareOf line).map .plain := scanLines_bareOf false lines
  refine ⟨⟨?_, ?_, fun line _ => length_codeOf line⟩, ⟨exists_readsLines false lines, fun readings h => ?_⟩, ⟨?_, ?_⟩,
    ⟨?_, ?_⟩, List.forall_mem_map.2 fun line hline => isMarkerFree_of_mem_scanLines hline, fun line hline => ?_⟩
  · rw [List.length_map, length_scanLines]
  · rw [List.length_map, length_scanLines]
  · have hcells : cells = readings.map kept := scanLines_of_readsLines h
    refine ⟨hcells, ?_, fun ss _ i => ⟨getElem?_bareOf_of_inLiteral, getElem?_bareOf_of_not_inLiteral⟩⟩
    show ReadsLines false (cells.map codeOf) _
    rw [hcells, List.map_map]
    exact readsLines_uncommented h
  · rw [scanLines_codeOf]
  · rw [scanLines_codeOf]
  · rw [hscanBare, List.map_map]
    exact List.map_congr_left fun line _ => codeOf_plain (bareOf line)
  · rw [hscanBare, List.map_map]
    exact List.map_congr_left fun line _ => bareOf_plain (bareOf line)
  · rcases List.mem_append.1 hline with hline | hline
    · obtain ⟨kept', hkept, rfl⟩ := List.mem_map.1 hline
      rw [scanLine_codeOf hkept]
    · obtain ⟨kept', hkept, rfl⟩ := List.mem_map.1 hline
      rw [scanLine_bareOf hkept]

/-- A comment in a word, one over a line end, and a literal that its line ends behind a backslash. -/
example :
    let cells := scanLines false ["a/**/b // c".toList, "d /* '".toList, "*/ '#\\' \"\\".toList]
    cells.map codeOf = ["a b ".toList, "d ".toList, "  '#\\' \"\\".toList] ∧
      cells.map bareOf = ["a b ".toList, "d ".toList, "  '      ".toList] := by decide +kernel

end ThriftModules.Idl
