import ThriftModules.Idl.Namespace
import ThriftModules.Module.Qualifier
import ThriftModules.Proofs.Idl.Position
import ThriftModules.Proofs.Text.Sites
import ThriftModules.Proofs.Text.Trim

/-!
# What stands in a literal is not captured

* `IsLiteralText` : what can stand between two quotes on one line without a backslash;
* `bareLines_literal` : sources that differ in one literal have the same bare lines but for the number of blanks between
  its quotes;
* `declaredWords_blanks`, `namespaceValues_blanks`, `qualifiedReferences_blanks` : no capture depends on that number;
* `flatMap_bareLines_literal` : so the captures of such sources are the same.
-/

namespace ThriftModules.Idl

set_option autoImplicit false

open Text (IsInLine)

/-- Neither the quote, nor a backslash, nor a line feed stands in `t`. -/
def IsLiteralText (quote : Char) (t : Text) : Prop := ∀ c ∈ t, c ≠ quote ∧ c ≠ '\\' ∧ c ≠ '\n'

def withLiteral (before : Text) (quote : Char) (body after : Text) : Text := before ++ quote :: (body ++ quote :: after)

/-! ## The scan of a literal -/

theorem isLiteralQuote_cases {q : Char} (h : isLiteralQuote q = true) : q = '"' ∨ q = '\'' := by
  simpa [isLiteralQuote] using h

theorem scanLine_openQuote {q : Char} (hq : isLiteralQuote q = true) (r : Text) :
    scanLine .code (q :: r) = (scanLine (.literal q) r).cons (.plain q) := by
  rcases isLiteralQuote_cases hq with rfl | rfl <;> simp [scanLine, isLiteralQuote]

theorem scanLine_closeQuote {q : Char} (hq : isLiteralQuote q = true) (r : Text) :
    scanLine (.literal q) (q :: r) = (scanLine .code r).cons (.plain q) := by
  rcases isLiteralQuote_cases hq with rfl | rfl <;> simp [scanLine]

theorem scanRest_openQuote {q : Char} (hq : isLiteralQuote q = true) (r : Text) :
    scanRest .code (q :: r) = push [.plain q] (scanRest (.literal q) r) := by
  have hx : IsInLine [q] r := by
    rcases isLiteralQuote_cases hq with rfl | rfl <;> exact ⟨by decide, by simp⟩
  refine scanRest_append (x := [q]) (by simp) hx fun l _ => ?_
  rw [List.singleton_append, scanLine_openQuote hq]
  rfl

theorem scanRest_closeQuote {q : Char} (hq : isLiteralQuote q = true) (r : Text) :
    scanRest (.literal q) (q :: r) = push [.plain q] (scanRest .code r) := by
  have hx : IsInLine [q] r := by
    rcases isLiteralQuote_cases hq with rfl | rfl <;> exact ⟨by decide, by simp⟩
  refine scanRest_append (x := [q]) (by simp) hx fun l _ => ?_
  rw [List.singleton_append, scanLine_closeQuote hq]
  rfl

theorem scanRest_literalText {q : Char} (hq : isLiteralQuote q = true) {body : Text} (hb : IsLiteralText q body)
    (r : Text) :
    scanRest (.literal q) (body ++ q :: r) = push (body.map .hidden ++ [.plain q]) (scanRest .code r) := by
  induction body with
  | nil => exact scanRest_closeQuote hq r
  | cons c body ih =>
    obtain ⟨hc, hs, hn⟩ := hb c (by simp)
    have hnext : (body ++ q :: r).head? ≠ some '\n' := by
      cases body with
      | nil =>
        rcases isLiteralQuote_cases hq with rfl | rfl <;> simp
      | cons d body => simpa using (hb d (by simp)).2.2
    have hx : IsInLine [c] (body ++ q :: r) := ⟨by simpa using Ne.symm hn, fun h => hnext h.2⟩
    have hscan : scanRest (.literal q) (c :: (body ++ q :: r)) =
        push [.hidden c] (scanRest (.literal q) (body ++ q :: r)) := by
      refine scanRest_append (x := [c]) (by simp) hx fun l _ => ?_
      rw [List.singleton_append, scanLine, if_neg hc]
      · rfl
      · rintro d l' rfl
        exact absurd rfl hs
    rw [List.cons_append, hscan, ih fun d hd => hb d (by simp [hd]), ← push_append]
    rfl

/-- Sources that differ in one literal: one bare line holds as many blanks as the literal holds characters. -/
theorem bareLines_literal {before after body : Text} {q : Char} (path : Text) (hq : isLiteralQuote q = true)
    (h : StandsInCode (withLiteral before q body after) (q :: (body ++ q :: after))) :
    ∃ done u v rest, ∀ t, IsLiteralText q t →
      (Source.ofText path (withLiteral before q t after)).bareLines =
        done ++ (u ++ q :: (List.replicate t.length ' ' ++ q :: v)) :: rest := by
  obtain ⟨done, p, hleaves⟩ := h.exists_scanLines
  obtain ⟨l, ls, hl⟩ := List.exists_cons_of_ne_nil (scanRest_ne_nil .code after)
  refine ⟨done.map bareOf, bareOf p, bareOf l, ls.map bareOf, fun t ht => ?_⟩
  have hhidden : (t.map Cell.hidden).map Cell.bare = List.replicate t.length ' ' := bareOf_hidden t
  rw [Source.ofText, Source.bareLines, withLiteral, hleaves (q :: (t ++ q :: after)) (by simp) rfl,
    scanRest_openQuote hq, scanRest_literalText hq ht, hl]
  simp [push, bareOf, hhidden, Cell.plain]

/-! ## Captures -/

theorem not_isWordChar_of_isLiteralQuote {q : Char} (hq : isLiteralQuote q = true) : Text.isWordChar q = false := by
  rcases isLiteralQuote_cases hq with rfl | rfl <;> decide

theorem not_isBlank_of_isLiteralQuote {q : Char} (hq : isLiteralQuote q = true) : Text.isBlank q = false := by
  rcases isLiteralQuote_cases hq with rfl | rfl <;> decide

/-- Words behind a keyword do not depend on the number of blanks in a literal. -/
theorem keywordTails_blanks {α : Type} {keyword : Text} {q : Char} (hq : isLiteralQuote q = true) (hk : q ∉ keyword)
    (hb : ∃ c ∈ keyword, c ≠ ' ') {f : Text → Option α} (hf : ∀ t r, f (t ++ q :: r) = f t) (n m : Nat) (u v : Text) :
    (Text.keywordTails keyword (u ++ q :: (List.replicate n ' ' ++ q :: v))).filterMap f =
      (Text.keywordTails keyword (u ++ q :: (List.replicate m ' ' ++ q :: v))).filterMap f := by
  rw [Text.keywordTails_eq, Text.keywordTails_eq, List.filterMap_filterMap, List.filterMap_filterMap]
  refine Text.filterMap_sites_blanks hk hb (fun b t r => ?_) n m u v
  dsimp only
  split
  · rfl
  · rw [Text.afterBlanks?_append_cons (not_isBlank_of_isLiteralQuote hq), Option.bind_map]
    congr 1
    funext tail
    exact hf tail r

theorem declaredWords_blanks {q : Char} (hq : isLiteralQuote q = true) (kind : Kind) (n m : Nat) (u v : Text) :
    declaredWords kind.keyword (u ++ q :: (List.replicate n ' ' ++ q :: v)) =
      declaredWords kind.keyword (u ++ q :: (List.replicate m ' ' ++ q :: v)) := by
  have hk : q ∉ kind.keyword := by
    rcases isLiteralQuote_cases hq with rfl | rfl <;> cases kind <;> decide
  have hb : ∃ c ∈ kind.keyword, c ≠ ' ' := by cases kind <;> decide
  have hwords := keywordTails_blanks hq hk hb (f := some ∘ Text.takeWord)
    (fun t r => congrArg some (Text.takeWhile_append_cons (not_isWordChar_of_isLiteralQuote hq) t r)) n m u v
  rw [List.filterMap_eq_map] at hwords
  exact congrArg (List.filter (· ≠ [])) hwords

theorem namespaceValues_blanks {q : Char} (hq : isLiteralQuote q = true) (n m : Nat) (u v : Text) :
    namespaceValues (u ++ q :: (List.replicate n ' ' ++ q :: v)) =
      namespaceValues (u ++ q :: (List.replicate m ' ' ++ q :: v)) := by
  have hchar : isNamespaceChar q = false := by rcases isLiteralQuote_cases hq with rfl | rfl <;> decide
  have hjs : q ∉ "js".toList := by rcases isLiteralQuote_cases hq with rfl | rfl <;> decide
  have hk : q ∉ "namespace".toList := by rcases isLiteralQuote_cases hq with rfl | rfl <;> decide
  have hvalues := keywordTails_blanks hq hk (by decide)
    (f := fun t => (Text.stripKeyword? "js".toList t).map (List.takeWhile isNamespaceChar)) (fun t r => ?_) n m u v
  · rw [← List.map_filterMap, ← List.map_filterMap] at hvalues
    exact congrArg (List.filter (· ≠ [])) hvalues
  · have hstrip : Text.stripKeyword? "js".toList (t ++ q :: r) =
        (Text.stripKeyword? "js".toList t).map (· ++ q :: r) := by
      rw [Text.stripKeyword?, Text.stripKeyword?, Text.stripStart?_append_cons hjs, Option.bind_map, Option.map_bind]
      congr 1
      funext tail
      exact Text.afterBlanks?_append_cons (not_isBlank_of_isLiteralQuote hq) tail r
    rw [hstrip, Option.map_map]
    congr 1
    funext tail
    exact Text.takeWhile_append_cons hchar tail r

theorem qualifiedReferences_eq (qualifier line : Text) :
    Module.qualifiedReferences qualifier line =
      ((Text.sites (qualifier ++ ['.']) none line).filterMap fun s =>
        if Module.Quoted.kept.removes ⟨[], s.1, s.2⟩ then some (Text.takeWord s.2) else none).filter (· ≠ []) := by
  rw [Module.qualifiedReferences, Text.sites, List.filterMap_map, ← List.filterMap_eq_map, List.filterMap_filter]
  rfl

theorem qualifiedReferences_blanks {q : Char} (hq : isLiteralQuote q = true) {qualifier : Text} (hk : q ∉ qualifier)
    (n m : Nat) (u v : Text) :
    Module.qualifiedReferences qualifier (u ++ q :: (List.replicate n ' ' ++ q :: v)) =
      Module.qualifiedReferences qualifier (u ++ q :: (List.replicate m ' ' ++ q :: v)) := by
  have hdot : q ≠ '.' := by rcases isLiteralQuote_cases hq with rfl | rfl <;> decide
  have hneedle : q ∉ qualifier ++ ['.'] := by simp [hk, hdot]
  have hb : ∃ c ∈ qualifier ++ ['.'], c ≠ ' ' := ⟨'.', by simp, by decide⟩
  rw [qualifiedReferences_eq, qualifiedReferences_eq]
  congr 1
  refine Text.filterMap_sites_blanks hneedle hb (fun b t r => ?_) n m u v
  dsimp only
  rw [Text.takeWord, Text.takeWord, Text.takeWhile_append_cons (not_isWordChar_of_isLiteralQuote hq)]
  rfl

/-- A capture that no number of blanks in a literal changes does not depend on what stands in a literal. -/
theorem flatMap_bareLines_literal {α : Type} {before after b c : Text} {q : Char} {f : Text → List α} (path : Text)
    (hq : isLiteralQuote q = true) (h : StandsInCode (withLiteral before q b after) (q :: (b ++ q :: after)))
    (hb : IsLiteralText q b) (hc : IsLiteralText q c)
    (hf : ∀ n m u v, f (u ++ q :: (List.replicate n ' ' ++ q :: v)) = f (u ++ q :: (List.replicate m ' ' ++ q :: v))) :
    (Source.ofText path (withLiteral before q b after)).bareLines.flatMap f =
      (Source.ofText path (withLiteral before q c after)).bareLines.flatMap f := by
  obtain ⟨done, u, v, rest, hbare⟩ := bareLines_literal path hq h
  rw [hbare b hb, hbare c hc, List.flatMap_append, List.flatMap_append, List.flatMap_cons, List.flatMap_cons,
    hf b.length c.length]

theorem declared_literal {before after b c : Text} {q : Char} (path : Text) (hq : isLiteralQuote q = true)
    (h : StandsInCode (withLiteral before q b after) (q :: (b ++ q :: after))) (hb : IsLiteralText q b)
    (hc : IsLiteralText q c) (kind : Kind) :
    (Source.ofText path (withLiteral before q b after)).declared kind =
      (Source.ofText path (withLiteral before q c after)).declared kind :=
  congrArg NameSet.ofList (flatMap_bareLines_literal path hq h hb hc (declaredWords_blanks hq kind))

theorem namespaces_literal {before after b c : Text} {q : Char} (path : Text) (hq : isLiteralQuote q = true)
    (h : StandsInCode (withLiteral before q b after) (q :: (b ++ q :: after))) (hb : IsLiteralText q b)
    (hc : IsLiteralText q c) :
    (Source.ofText path (withLiteral before q b after)).namespaces =
      (Source.ofText path (withLiteral before q c after)).namespaces :=
  congrArg NameSet.ofList (flatMap_bareLines_literal path hq h hb hc (namespaceValues_blanks hq))

end ThriftModules.Idl
