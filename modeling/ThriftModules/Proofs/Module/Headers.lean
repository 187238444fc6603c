import ThriftModules.Proofs.Module.Reports

/-!
# Which lines are exported

* `IsKept` : a line of a declaration file that is not left out;
* `IsHeaderOf`, `IsHeader` : an indented line that opens the body of a declared enum or class;
* `exists_opening_rewritten` : a rewritten line differs from the line itself in the words that open it;
* `exportHeader?_eq_none_iff` : the headers are the lines that are recognised;
* `IsMarked` : the text of a line starts with `export`, and would not if the line were not recognised;
* `BodyOf` : the body of a module as what its lines are made of, one after the other;
* `declarations_export_headers` : the marked lines of a module are the kept headers, and what they declare is not
  missing.
-/

namespace ThriftModules.Module

set_option autoImplicit false

open Idl (Symbols)
open Text (IsWord IsBlanks IsGap)

/-! ## Headers -/

/-- The line is neither blank nor a line comment, and does not open the ambient module. -/
def IsKept (raw : Text) : Prop :=
  Text.trim raw ≠ [] ∧ ¬"//".toList <+: Text.trim raw ∧ ¬"declare module".toList <:+: raw

/-- The source declares `name` for this keyword: as an enum, or as a struct, an exception, a service or a client. -/
def Declares (symbols : Symbols) : Header → Text → Prop
  | .enumeration, name => name ∈ symbols.enums
  | .classBody, name =>
    name ∈ symbols.structs ∨ name ∈ symbols.exceptions ∨ name ∈ symbols.services ∨
      ∃ service ∈ symbols.services, name = Symbols.clientOf service

inductive Opens : Header → Text → Prop where
  | body {header : Header} {gap rest : Text} (blanks : IsBlanks gap) : Opens header (gap ++ '\x7b' :: rest)
  | base {gap gap' rest : Text} (apart : IsGap gap) (apart' : IsGap gap') :
    Opens .classBody (gap ++ ("extends".toList ++ (gap' ++ rest)))

/-- The line is indented and opens the declaration of `name`, which the source declares. -/
inductive IsHeaderOf (symbols : Symbols) (header : Header) (name : Text) : Text → Prop where
  | intro {indent gap after : Text} (indented : IsGap indent) (apart : IsGap gap) (word : IsWord name)
    (opens : Opens header after) (declared : Declares symbols header name) :
    IsHeaderOf symbols header name (indent ++ (header.keyword ++ (gap ++ (name ++ after))))

def IsHeader (symbols : Symbols) (raw : Text) : Prop := ∃ header name, IsHeaderOf symbols header name raw

section
variable {symbols : Symbols} {header : Header} {raw name line after : Text}

theorem isLeftOut_eq_false_iff : isLeftOut raw = false ↔ IsKept raw := by
  rw [isLeftOut, Bool.or_eq_false_iff, Bool.or_eq_false_iff, List.isEmpty_eq_false_iff, ← Bool.not_eq_true,
    Text.contains_iff, ← Bool.not_eq_true (Text.startsWith _ _), Text.startsWith_iff, IsKept, and_assoc,
    and_comm (a := ¬_ <:+: _)]

theorem declares_iff : header.declares symbols name = true ↔ Declares symbols header name := by
  cases header with
  | enumeration => exact decide_eq_true_iff
  | classBody =>
    have hclient : name ∈ symbols.clients ↔ ∃ service ∈ symbols.services, name = Symbols.clientOf service := by
      rw [Symbols.mem_clients]
      simp only [eq_comm (a := name)]
      rfl
    simp only [Header.declares, Symbols.isClass, Declares, Bool.or_eq_true, decide_eq_true_iff, hclient, or_assoc]

theorem header?_eq_some_iff {body : Text} :
    header? body = some (header, after) ↔
      ∃ gap, IsGap gap ∧ body = header.keyword ++ (gap ++ after) ∧ Text.trimStart after = after := by
  rw [← Text.stripKeyword?_eq_some_iff, header?]
  cases henum : Text.stripKeyword? Header.enumeration.keyword body with
  | some rest =>
    obtain ⟨gap, -, rfl, -⟩ := Text.stripKeyword?_eq_some_iff.1 henum
    cases header with
    | enumeration => simp [henum]
    | classBody =>
      have hclass :
          Text.stripKeyword? Header.classBody.keyword (Header.enumeration.keyword ++ (gap ++ rest)) = none := rfl
      simp [hclass]
  | none =>
    cases header with
    | enumeration => simp [henum]
    | classBody => simp

/-- What starts behind a word, and opens a body once its blanks are gone. -/
theorem opens_of_trimStart (hopens : header.opens (Text.trimStart after) = true)
    (hword : ∀ c, after.head? = some c → Text.isWordChar c = false) : Opens header after := by
  obtain ⟨gap, hgap, hblanks⟩ := Text.exists_trimStart after
  generalize Text.trimStart after = tail at hopens hgap
  subst hgap
  rcases Bool.or_eq_true_iff.1 hopens with hbrace | hbase
  · obtain ⟨rest, rfl⟩ := List.head?_eq_some_iff.1 (beq_iff_eq.1 hbrace)
    exact .body hblanks
  · obtain ⟨hclass, hextends⟩ := Bool.and_eq_true_iff.1 hbase
    obtain ⟨rest, hrest⟩ := Option.isSome_iff_exists.1 hextends
    obtain ⟨gap', hgap', rfl, -⟩ := Text.stripKeyword?_eq_some_iff.1 hrest
    rw [beq_iff_eq.1 hclass]
    refine .base ⟨?_, hblanks⟩ hgap'
    rintro rfl
    exact absurd (hword 'e' rfl) (by decide)

theorem Opens.isWordChar_head? (h : Opens header after) {c : Char} (hc : after.head? = some c) :
    Text.isWordChar c = false := by
  cases h with
  | @body _ gap rest blanks =>
    cases gap with
    | nil =>
      cases hc
      decide
    | cons d gap =>
      cases hc
      exact Text.not_isWordChar_of_isBlank (blanks c List.mem_cons_self)
  | base apart apart' => exact Text.not_isWordChar_of_isBlank (apart.isBlank_head? _ hc)

theorem isWord_keyword (header : Header) : IsWord header.keyword := by
  cases header <;> decide

theorem isWord_extends : IsWord "extends".toList := by decide

theorem Opens.opens_trimStart (h : Opens header after) : header.opens (Text.trimStart after) = true := by
  cases h with
  | body blanks =>
    rw [blanks.trimStart_append]
    rfl
  | @base gap gap' rest apart apart' =>
    rw [apart.2.trimStart_append, isWord_extends.trimStart_append, Header.opens, apart'.stripKeyword?_append,
      Option.isSome_some]
    exact Bool.or_true _

/-- A header by its parts: the indentation, the keyword with a gap, a word, and what stands behind it. -/
theorem isHeaderOf_of_header? (hindented : raw.head?.any Text.isBlank = true)
    (hheader : header? (Text.trimStart raw) = some (header, after)) (hne : Text.takeWord after ≠ [])
    (hdeclares : header.declares symbols (Text.takeWord after) = true)
    (hopens : header.opens (Text.trimStart (after.dropWhile Text.isWordChar)) = true) :
    IsHeaderOf symbols header (Text.takeWord after) raw := by
  obtain ⟨indent, hindent, hsplit⟩ := Text.exists_indent hindented
  obtain ⟨gap, hgap, hbody, -⟩ := header?_eq_some_iff.1 hheader
  have hword : IsWord (Text.takeWord after) := ⟨hne, fun c hc => List.mem_takeWhile_imp hc⟩
  have hopen : Opens header (after.dropWhile Text.isWordChar) := by
    refine opens_of_trimStart hopens fun c hc => ?_
    have hhead := List.head?_dropWhile_not Text.isWordChar after
    rwa [hc] at hhead
  have hraw : raw =
      indent ++ (header.keyword ++ (gap ++ (Text.takeWord after ++ after.dropWhile Text.isWordChar))) := by
    rw [Text.takeWord, List.takeWhile_append_dropWhile, ← hbody]
    exact hsplit
  rw [hraw]
  exact .intro hindent hgap hword hopen (declares_iff.1 hdeclares)

theorem exists_isHeaderOf_of_exportHeader? (h : exportHeader? symbols raw = some (name, line)) :
    ∃ header, IsHeaderOf symbols header name raw := by
  unfold exportHeader? at h
  simp only [Option.bind_eq_bind] at h
  split at h
  · cases h
  · next hindented =>
    obtain ⟨⟨header, after⟩, hheader, hline⟩ := Option.bind_eq_some_iff.1 h
    split at hline
    · next hdeclared =>
      obtain ⟨rfl, rfl⟩ := Prod.mk.inj (Option.some.inj hline)
      obtain ⟨hne, hdeclares, hopens⟩ := hdeclared
      exact ⟨header, isHeaderOf_of_header? (by simpa using hindented) hheader hne hdeclares hopens⟩
    · cases hline

theorem exportHeader?_append {indent gap : Text} (indented : IsGap indent) (apart : IsGap gap) (word : IsWord name)
    (opens : Opens header after) (declared : Declares symbols header name) :
    exportHeader? symbols (indent ++ (header.keyword ++ (gap ++ (name ++ after)))) =
      some (name, exportFront header name ++ Text.trimStart after) := by
  obtain ⟨htake, hdrop⟩ := word.takeWord_append fun c hc => opens.isWordChar_head? hc
  have hheader : header? (header.keyword ++ (gap ++ (name ++ after))) = some (header, name ++ after) :=
    header?_eq_some_iff.2 ⟨gap, apart, rfl, word.trimStart_append after⟩
  have hstart : Text.trimStart (indent ++ (header.keyword ++ (gap ++ (name ++ after)))) =
      header.keyword ++ (gap ++ (name ++ after)) := by
    rw [indented.2.trimStart_append, (isWord_keyword header).trimStart_append]
  have hindented : (indent ++ (header.keyword ++ (gap ++ (name ++ after)))).head?.any Text.isBlank = true := by
    obtain ⟨c, rest, rfl⟩ := List.exists_cons_of_ne_nil indented.1
    exact indented.2 c List.mem_cons_self
  unfold exportHeader?
  simp only [hindented, hstart, hheader, Bool.not_true, Bool.false_eq_true, if_false, Option.bind_eq_bind,
    Option.bind_some, htake, hdrop]
  rw [if_pos ⟨word.1, declares_iff.2 declared, opens.opens_trimStart⟩]
  exact congrArg (fun line => some (name, line)) (flatten_export "export ".toList header.keyword name _)

theorem IsHeaderOf.exportHeader? (h : IsHeaderOf symbols header name raw) :
    ∃ after, Opens header after ∧
      Module.exportHeader? symbols raw = some (name, exportFront header name ++ Text.trimStart after) := by
  cases h with
  | @intro indent gap after indented apart word opens declared =>
    exact ⟨after, opens, exportHeader?_append indented apart word opens declared⟩

end

/-! ## Fronts -/

theorem isFront_of_isGap {gap : Text} (h : IsGap gap) : IsFront gap := by
  refine ⟨h.2.notMem (by decide), h.2.notMem (by decide), ?_⟩
  obtain ⟨init, last, rfl⟩ := (List.eq_nil_or_concat gap).resolve_left h.1
  rw [List.concat_eq_append, List.getLast?_concat, startsPath_some, isPathChar_of_isBlank (h.2 last (by simp))]
  rfl

theorem IsFront.append_left {front t : Text} (h : IsFront front) (hne : front ≠ []) (hdot : '.' ∉ t)
    (hslash : '/' ∉ t) : IsFront (t ++ front) := by
  refine ⟨List.not_mem_append hdot h.1, List.not_mem_append hslash h.2.1, ?_⟩
  rw [List.getLast?_append_of_ne_nil _ hne]
  exact h.2.2

def IsWording (t : Text) : Prop := ∀ c ∈ t, Text.isBlank c = true ∨ Text.isWordChar c = true

/-- Words and blanks, and braces, behind which a path can start. -/
structure IsOpening (front : Text) : Prop where
  chars : ∀ c ∈ front, Text.isBlank c = true ∨ Text.isWordChar c = true ∨ c = '{'
  last : startsPath front.getLast? = true

section
variable {front t : Text} {c : Char}

theorem IsOpening.notMem (h : IsOpening front) (hblank : Text.isBlank c = false) (hword : Text.isWordChar c = false)
    (hbrace : c ≠ '{') : c ∉ front := by
  intro hc
  rcases h.chars c hc with h | h | h
  · rw [hblank] at h
    cases h
  · rw [hword] at h
    cases h
  · exact hbrace h

theorem IsOpening.isFront (h : IsOpening front) : IsFront front :=
  ⟨h.notMem (by decide) (by decide) (by decide), h.notMem (by decide) (by decide) (by decide), h.last⟩

theorem isOpening_nil : IsOpening [] := ⟨List.forall_mem_nil _, rfl⟩

theorem isOpening_of_isGap (h : IsGap front) : IsOpening front :=
  ⟨fun c hc => .inl (h.2 c hc), (isFront_of_isGap h).2.2⟩

theorem isOpening_append_brace (h : IsBlanks t) : IsOpening (t ++ ['{']) := by
  refine ⟨fun c hc => ?_, by rw [List.getLast?_concat]; rfl⟩
  rcases List.mem_append.1 hc with hc | hc
  · exact .inl (h c hc)
  · exact .inr (.inr (List.mem_singleton.1 hc))

theorem IsOpening.append_left (h : IsOpening front) (hne : front ≠ []) (ht : IsWording t) : IsOpening (t ++ front) := by
  refine ⟨fun c hc => ?_, by rw [List.getLast?_append_of_ne_nil _ hne]; exact h.last⟩
  rcases List.mem_append.1 hc with hc | hc
  · exact (ht c hc).imp_right .inl
  · exact h.chars c hc

theorem isWording_of_isWord (h : IsWord t) : IsWording t := fun c hc => .inr (h.2 c hc)

theorem isWording_of_isBlanks (h : IsBlanks t) : IsWording t := fun c hc => .inl (h c hc)

theorem isWording_exportFront {name : Text} (h : IsWord name) (header : Header) :
    IsWording (exportFront header name) := by
  have hopening : IsWording (exportOpening header) := by
    unfold IsWording
    cases header <;> decide
  have hblank : IsWording [' '] := by
    unfold IsWording
    decide
  exact List.forall_mem_append.2 ⟨hopening, List.forall_mem_append.2 ⟨isWording_of_isWord h, hblank⟩⟩

end

theorem Opens.exists_opening {header : Header} {after : Text} (h : Opens header after) :
    ∃ front front' tail, after = front ++ tail ∧ Text.trimStart after = front' ++ tail ∧ IsOpening front ∧
      IsOpening front' ∧ front ≠ [] ∧ front' ≠ [] := by
  cases h with
  | @body _ gap rest blanks =>
    have hempty : IsBlanks [] := List.forall_mem_nil _
    refine ⟨gap ++ ['{'], ['{'], rest, by simp, blanks.trimStart_append _, isOpening_append_brace blanks,
      isOpening_append_brace hempty, by simp, by simp⟩
  | @base gap gap' rest apart apart' =>
    have hbase : IsOpening ("extends".toList ++ gap') :=
      (isOpening_of_isGap apart').append_left apart'.1 (isWording_of_isWord isWord_extends)
    refine ⟨gap ++ ("extends".toList ++ gap'), "extends".toList ++ gap', rest, by simp, ?_,
      hbase.append_left (List.cons_ne_nil _ _) (isWording_of_isBlanks apart.2), hbase, by simp, List.cons_ne_nil _ _⟩
    rw [apart.2.trimStart_append, isWord_extends.trimStart_append, List.append_assoc]

section
variable {symbols : Symbols} {header : Header} {raw name line after : Text} {ctx : Context}

/-- What opens a body stays there: it starts with a character that is not blank, and nothing in it is removed. -/
theorem Opens.exists_front (h : Opens header after) :
    ∃ c front rest, Text.trimStart after = c :: (front ++ rest) ∧ Text.isBlank c = false ∧ IsFront (c :: front) := by
  obtain ⟨-, front, rest, -, htrim, -, hfront, -, hne⟩ := h.exists_opening
  obtain ⟨c, front, rfl⟩ := List.exists_cons_of_ne_nil hne
  refine ⟨c, front, rest, htrim, Text.isBlank_head?_trimStart (t := after) ?_, hfront.isFront⟩
  rw [htrim]
  rfl

/-- The line of a header starts as an export of its name, whatever else is removed. -/
theorem IsHeaderOf.front_prefix (h : IsHeaderOf ctx.symbols header name raw) (hnames : HasDottedNames ctx) :
    exportFront header name <+: unqualify ctx (rewritten ctx raw) := by
  obtain ⟨after, hopens, hline⟩ := h.exportHeader?
  obtain ⟨c, front, rest, hafter, hc, hfront⟩ := hopens.exists_front
  have hname : ∀ d ∈ name, Text.isWordChar d = true := by
    cases h with
    | intro _ _ word _ _ => exact word.2
  obtain ⟨hdot, hslash, -⟩ : IsFront (exportFront header name) := isFront_exportFront hname
  obtain ⟨rest', hrest⟩ := (hfront.append_left (List.cons_ne_nil _ _) hdot hslash).unqualify hnames rest
  have hsplit : exportFront header name ++ (c :: front) ++ rest' =
      exportFront header name ++ c :: (front ++ rest') := by
    simp
  have hrewritten : rewritten ctx raw = exportFront header name ++ (c :: front) ++ rest := by
    rw [rewritten, hline, hafter]
    simp
  rw [hrewritten, hrest, hsplit]
  have hhead : ∀ d, (exportFront header name ++ [c]).head? = some d → Text.isBlank d = false := by
    intro d hd
    cases header <;> cases hd <;> decide
  exact (List.prefix_append _ _).trans (Text.prefix_trim hhead hc _)

theorem IsHeaderOf.keyword_prefix (h : IsHeaderOf ctx.symbols header name raw) (hnames : HasDottedNames ctx) :
    header.keyword <+: unqualify ctx raw := by
  cases h with
  | @intro indent gap after indented apart word opens declared =>
    have hkeyword : '.' ∉ header.keyword ∧ '/' ∉ header.keyword := by cases header <;> decide
    have hfront : IsFront (indent ++ (header.keyword ++ gap)) :=
      ((isFront_of_isGap apart).append_left apart.1 hkeyword.1 hkeyword.2).append_left
        (List.append_ne_nil_of_right_ne_nil _ apart.1) (indented.2.notMem (by decide)) (indented.2.notMem (by decide))
    obtain ⟨rest, hrest⟩ := hfront.unqualify hnames (name ++ after)
    have hraw : indent ++ (header.keyword ++ (gap ++ (name ++ after))) =
        indent ++ (header.keyword ++ gap) ++ (name ++ after) := by
      simp only [List.append_assoc]
    have htrim : Text.trim (indent ++ (header.keyword ++ gap) ++ rest) =
        Text.trim (header.keyword ++ (gap ++ rest)) := by
      have hnone : ∀ c ∈ ([] : Text), Text.isBlank c = true := List.forall_mem_nil _
      rw [← Text.trim_blank_append indented.2 hnone (header.keyword ++ (gap ++ rest))]
      simp only [List.append_assoc, List.append_nil]
    have hhead : ∀ d, header.keyword.head? = some d → Text.isBlank d = false :=
      fun d hd => Text.isBlank_of_isWordChar ((isWord_keyword header).2 d (List.mem_of_head? hd))
    rw [hraw, hrest, htrim]
    cases header with
    | enumeration => exact Text.prefix_trim (t := "enu".toList) (c := 'm') hhead (by decide) _
    | classBody => exact Text.prefix_trim (t := "clas".toList) (c := 's') hhead (by decide) _

theorem IsHeaderOf.not_export_prefix (h : IsHeaderOf ctx.symbols header name raw) (hnames : HasDottedNames ctx) :
    ¬"export ".toList <+: unqualify ctx raw := by
  intro hexport
  have hle : header.keyword.length ≤ "export ".toList.length := by cases header <;> decide
  have hprefix : header.keyword <+: "export ".toList :=
    List.prefix_of_prefix_length_le (h.keyword_prefix hnames) hexport hle
  revert hprefix
  cases header <;> decide

end

/-! ## Rewritten lines -/

/-- A rewritten line differs from the line itself in the words that open it. -/
theorem exists_opening_rewritten (ctx : Context) (raw : Text) :
    ∃ front front' tail, raw = front ++ tail ∧ rewritten ctx raw = front' ++ tail ∧ IsOpening front ∧
      IsOpening front' := by
  rw [rewritten]
  split
  · next name line hline =>
    obtain ⟨header, hheader⟩ := exists_isHeaderOf_of_exportHeader? hline
    cases hheader with
    | @intro indent gap after indented apart word opens declared =>
      rw [exportHeader?_append indented apart word opens declared] at hline
      obtain ⟨-, rfl⟩ := Prod.mk.inj (Option.some.inj hline)
      obtain ⟨front, front', tail, hafter, htrim, hfront, hfront', hne, hne'⟩ := opens.exists_opening
      have hname := hfront.append_left hne (isWording_of_isWord word)
      have hgap := hname.append_left (List.append_ne_nil_of_right_ne_nil _ hne) (isWording_of_isBlanks apart.2)
      have hkeyword := hgap.append_left (List.append_ne_nil_of_left_ne_nil apart.1 _)
        (isWording_of_isWord (isWord_keyword header))
      have hindent := hkeyword.append_left (List.append_ne_nil_of_left_ne_nil (isWord_keyword header).1 _)
        (isWording_of_isBlanks indented.2)
      refine ⟨_, exportFront header name ++ front', tail, ?_, ?_, hindent,
        hfront'.append_left hne' (isWording_exportFront word header)⟩
      · rw [hafter]
        simp only [List.append_assoc]
      · rw [htrim, List.append_assoc]
  · exact ⟨[], [], raw, rfl, rfl, isOpening_nil, isOpening_nil⟩

/-! ## The lines of a body -/

/-- The text starts with `export`, and would not if the line were not recognised. -/
def IsMarked (ctx : Context) (raw text : Text) : Prop :=
  "export ".toList <+: text ∧ ¬"export ".toList <+: unqualify ctx raw

/-- A line of a module as it comes from a line of a declaration file. -/
structure IsAdapted (ctx : Context) (raw text : Text) : Prop where
  kept : IsKept raw
  marked_iff : IsMarked ctx raw text ↔ IsHeader ctx.symbols raw
  front : ∀ header name, IsHeaderOf ctx.symbols header name raw → exportFront header name <+: text
  plain : ¬IsHeader ctx.symbols raw → text = unqualify ctx raw

/-- The second lines are what the first ones become, one after the other. A kept line is left out only if it is no
header and nothing, or nothing but a closing brace, is left of it. -/
inductive BodyOf (ctx : Context) : List Text → List Text → Prop where
  | nil : BodyOf ctx [] []
  | take {raw text : Text} {raws texts : List Text} (line : IsAdapted ctx raw text) (rest : BodyOf ctx raws texts) :
    BodyOf ctx (raw :: raws) (text :: texts)
  | leave {raw : Text} {raws texts : List Text}
    (dropped : IsKept raw → ¬IsHeader ctx.symbols raw ∧ (unqualify ctx raw = [] ∨ unqualify ctx raw = ['\x7d']))
    (rest : BodyOf ctx raws texts) : BodyOf ctx (raw :: raws) texts

section
variable {ctx : Context} {raw text name : Text} {raws texts : List Text} {files : List Text} {adapted : AdaptedLine}

theorem exportHeader?_eq_none_iff : exportHeader? ctx.symbols raw = none ↔ ¬IsHeader ctx.symbols raw := by
  constructor
  · rintro hnone ⟨header, name, h⟩
    obtain ⟨after, -, hline⟩ := h.exportHeader?
    rw [hline] at hnone
    cases hnone
  · intro h
    rw [Option.eq_none_iff_forall_ne_some]
    rintro ⟨name, line⟩ hline
    obtain ⟨header, hheader⟩ := exists_isHeaderOf_of_exportHeader? hline
    exact h ⟨header, name, hheader⟩

theorem isKept_of_adaptLine? (h : adaptLine? ctx raw = some adapted) : IsKept raw := by
  rw [adaptLine?] at h
  split at h
  · cases h
  · exact isLeftOut_eq_false_iff.1 (Bool.eq_false_iff.2 ‹_›)

theorem exists_adaptLine?_of_isKept (ctx : Context) (h : IsKept raw) :
    ∃ adapted, adaptLine? ctx raw = some adapted ∧
      adapted.exported = (exportHeader? ctx.symbols raw).map Prod.fst := by
  rw [adaptLine?, isLeftOut_eq_false_iff.2 h, if_neg Bool.false_ne_true]
  cases exportHeader? ctx.symbols raw with
  | none => exact ⟨_, rfl, rfl⟩
  | some h => exact ⟨_, rfl, rfl⟩

theorem isAdapted_of_adaptLine? (hnames : HasDottedNames ctx) (h : adaptLine? ctx raw = some adapted) :
    IsAdapted ctx raw adapted.text := by
  have htext : adapted.text = unqualify ctx (rewritten ctx raw) := text_of_adaptLine? h
  have hplain : ¬IsHeader ctx.symbols raw → adapted.text = unqualify ctx raw := by
    intro hheader
    rw [htext, rewritten, exportHeader?_eq_none_iff.2 hheader]
  have hfront : ∀ header name, IsHeaderOf ctx.symbols header name raw → exportFront header name <+: adapted.text := by
    intro header name hheader
    rw [htext]
    exact hheader.front_prefix hnames
  refine ⟨isKept_of_adaptLine? h, ⟨?_, ?_⟩, hfront, hplain⟩
  · rintro ⟨hexport, hnot⟩
    by_contra hheader
    rw [hplain hheader] at hexport
    exact hnot hexport
  · rintro ⟨header, name, hheader⟩
    have hexport : "export ".toList <+: exportOpening header := List.prefix_append _ _
    have hopening : exportOpening header <+: exportFront header name := List.prefix_append _ _
    exact ⟨(hexport.trans hopening).trans (hfront header name hheader), hheader.not_export_prefix hnames⟩

theorem IsAdapted.not_isHeader (h : IsAdapted ctx raw text) (htext : text = [] ∨ text = ['\x7d']) :
    ¬IsHeader ctx.symbols raw := by
  rintro ⟨header, name, hheader⟩
  obtain ⟨rest, hrest⟩ := h.front header name hheader
  rcases htext with rfl | rfl
  · cases header <;> cases hrest
  · cases header <;> cases hrest

theorem BodyOf.append {raws' texts' : List Text} (h : BodyOf ctx raws texts) (h' : BodyOf ctx raws' texts') :
    BodyOf ctx (raws ++ raws') (texts ++ texts') := by
  induction h with
  | nil => exact h'
  | take line _ ih => exact .take line ih
  | leave dropped _ ih => exact .leave dropped ih

/-- The lines of a file that are not left out and of which something is left. -/
theorem bodyOf_adapted (hnames : HasDottedNames ctx) (raws : List Text) :
    BodyOf ctx raws (((raws.filterMap (adaptLine? ctx)).map AdaptedLine.text).filter (· ≠ [])) := by
  induction raws with
  | nil => exact .nil
  | cons raw raws ih =>
    cases h : adaptLine? ctx raw with
    | none =>
      rw [List.filterMap_cons_none h]
      refine .leave (fun hkept => ?_) ih
      obtain ⟨adapted, hadapted, -⟩ := exists_adaptLine?_of_isKept ctx hkept
      rw [hadapted] at h
      cases h
    | some adapted =>
      have hline := isAdapted_of_adaptLine? hnames h
      rw [List.filterMap_cons_some h, List.map_cons]
      by_cases htext : adapted.text = []
      · have hnot := hline.not_isHeader (.inl htext)
        rw [List.filter_cons_of_neg (by simpa using htext)]
        exact .leave (fun _ => ⟨hnot, .inl (by rw [← hline.plain hnot, htext])⟩) ih
      · rw [List.filter_cons_of_pos (by simpa using htext)]
        exact .take hline ih

theorem BodyOf.of_concat_brace (h : BodyOf ctx raws (texts ++ [['\x7d']])) : BodyOf ctx raws texts := by
  generalize hlines : texts ++ [['\x7d']] = lines at h
  induction h generalizing texts with
  | nil => cases texts <;> cases hlines
  | leave dropped _ ih => exact .leave dropped (ih hlines)
  | take line rest ih =>
    cases texts with
    | nil =>
      cases hlines
      have hnot := line.not_isHeader (.inr rfl)
      exact .leave (fun _ => ⟨hnot, .inr (line.plain hnot).symm⟩) rest
    | cons text texts =>
      cases hlines
      exact .take line (ih rfl)

theorem BodyOf.dropModuleEnd (h : BodyOf ctx raws texts) : BodyOf ctx raws (dropModuleEnd texts) := by
  rw [Module.dropModuleEnd]
  split
  · next hlast =>
    obtain ⟨init, rfl⟩ := List.getLast?_eq_some_iff.1 hlast
    rw [List.dropLast_concat]
    exact h.of_concat_brace
  · exact h

theorem bodyOf_files (hnames : HasDottedNames ctx) (files : List Text) :
    BodyOf ctx (files.flatMap Text.lines) ((files.map (adaptFile ctx)).flatMap bodyLines) := by
  induction files with
  | nil => exact .nil
  | cons file files ih =>
    rw [List.flatMap_cons, List.map_cons, List.flatMap_cons]
    exact (bodyOf_adapted hnames (Text.lines file)).dropModuleEnd.append ih

/-- The recognised names are those that a kept header declares. -/
theorem mem_recognised_iff :
    name ∈ recognised ctx files ↔
      ∃ file ∈ files, ∃ raw ∈ Text.lines file, IsKept raw ∧ ∃ header, IsHeaderOf ctx.symbols header name raw := by
  rw [mem_recognised]
  constructor
  · rintro ⟨file, hfile, adapted, hadapted, hname⟩
    obtain ⟨raw, hraw, hkept, -, hexported⟩ := exists_of_mem_adaptFile hadapted
    rw [hexported] at hname
    obtain ⟨⟨name', line⟩, hline, rfl⟩ := Option.map_eq_some_iff.1 hname
    exact ⟨file, hfile, raw, hraw, isLeftOut_eq_false_iff.1 hkept, exists_isHeaderOf_of_exportHeader? hline⟩
  · rintro ⟨file, hfile, raw, hraw, hkept, header, hheader⟩
    obtain ⟨adapted, hadapted, hexported⟩ := exists_adaptLine?_of_isKept ctx hkept
    obtain ⟨after, -, hline⟩ := hheader.exportHeader?
    rw [hline] at hexported
    exact ⟨file, hfile, adapted, List.mem_filterMap.2 ⟨raw, hraw, hadapted⟩, hexported⟩

end

/-- The lines of a declaration module that were given an `export` are the kept headers of its declaration files, and an
enum, a struct or an exception is missing exactly if no kept header declares its name. -/
theorem declarations_export_headers {ctx : Context} (hnames : HasDottedNames ctx) (files : List Text) :
    (∃ body, BodyOf ctx (files.flatMap Text.lines) body ∧
      (composeDeclarations ctx files).text =
        Text.unlines ([moduleLine ctx, runtimeImport] ++ crossImports ctx ++ body ++ [['\x7d']])) ∧
    ∀ m : Missing, m.kind ≠ .service → m.name ∈ namesOf ctx.symbols m.kind →
      (m ∉ (composeDeclarations ctx files).missing ↔
        ∃ file ∈ files, ∃ raw ∈ Text.lines file, IsKept raw ∧ ∃ header, IsHeaderOf ctx.symbols header m.name raw) := by
  refine ⟨⟨_, bodyOf_files hnames files, rfl⟩, fun m hkind hname => ?_⟩
  rw [mem_missing_composeDeclarations, ← mem_recognised_iff]
  constructor
  · intro h
    by_contra hnot
    exact h ⟨hkind, hname, hnot⟩
  · exact fun h hmissing => hmissing.2.2 h

/-- The header of an exception, which is found by its base. -/
theorem declarations_export_headers_oops :
    let ctx := demo "exception Oops \x7b\x7d".toList
    let files := ["declare module demo \x7b\n  class Oops extends Thrift.TException \x7b\n  \x7d\n\x7d\n".toList]
    (∃ body, BodyOf ctx (files.flatMap Text.lines) body ∧
      (composeDeclarations ctx files).text =
        Text.unlines ([moduleLine ctx, runtimeImport] ++ crossImports ctx ++ body ++ [['\x7d']])) ∧
    ∃ file ∈ files, ∃ raw ∈ Text.lines file,
      IsKept raw ∧ ∃ header, IsHeaderOf ctx.symbols header "Oops".toList raw := by
  intro ctx files
  have hnames : HasDottedNames ctx := by
    unfold HasDottedNames
    decide
  obtain ⟨hbody, hmissing⟩ := declarations_export_headers hnames files
  have hfound : (⟨.exception, "Oops".toList⟩ : Missing) ∉ (composeDeclarations ctx files).missing := by decide +kernel
  have hdeclared : "Oops".toList ∈ namesOf ctx.symbols .exception := by decide +kernel
  exact ⟨hbody, (hmissing ⟨.exception, "Oops".toList⟩ (by decide) hdeclared).1 hfound⟩

end ThriftModules.Module
