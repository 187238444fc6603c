import ThriftModules.Proofs.Idl.Position
import ThriftModules.Proofs.Text.Sites

/-!
# Comments leave nothing of their bodies

* `CommentStyle` : the three ways to write a comment, with what a body may hold (`CommentStyle.Encloses`);
* `scanRest_blockComment` : a block comment leaves an empty line for each line feed of its body, and one blank;
* `scanRest_comment` : what the scanner leaves of a comment depends on the number of its line feeds alone;
* `ofText_comment` : two texts that differ in the body of one comment are the same source.
-/

namespace ThriftModules.Idl

set_option autoImplicit false

open Text (IsInLine)

inductive CommentStyle where
  /-- Between two markers. -/
  | block
  /-- From two slashes to the end of the line. -/
  | slashes
  /-- From a hash to the end of the line. -/
  | hash
deriving DecidableEq, Repr

namespace CommentStyle

def text : CommentStyle → Text → Text
  | block, body => '/' :: '*' :: (body ++ ['*', '/'])
  | slashes, body => '/' :: '/' :: body
  | hash, body => '#' :: body

/-- Whether `body` is the whole body of a comment that `after` follows. -/
def Encloses : CommentStyle → Text → Text → Prop
  | block, body, _ => Text.contains body "*/".toList = false
  | _, body, after => '\n' ∉ body ∧ (after = [] ∨ after.head? = some '\n')

theorem text_ne_nil (style : CommentStyle) (body : Text) : style.text body ≠ [] := by
  cases style <;> simp [text]

theorem head?_text (style : CommentStyle) (b c : Text) : (style.text b).head? = (style.text c).head? := by
  cases style <;> rfl

end CommentStyle

/-! ## Inside a block comment -/

theorem scanRest_comment_cons {c : Char} {t : Text} (hn : c ≠ '\n') (hc : c = '*' → t.head? ≠ some '/') :
    scanRest .comment (c :: t) = scanRest .comment t := by
  by_cases hr : c = '\r' ∧ t.head? = some '\n'
  · obtain ⟨rfl, hr⟩ := hr
    obtain ⟨t, rfl⟩ := List.head?_eq_some_iff.1 hr
    exact scanRest_return .comment t
  · have hx : IsInLine [c] t := ⟨by simpa using Ne.symm hn, by simpa using hr⟩
    rw [← push_nil (scanRest_ne_nil .comment t)]
    apply scanRest_append (x := [c]) (by simp) hx
    intro l hl
    have hclose : c = '*' → l.head? ≠ some '/' := by
      rintro rfl hslash
      rcases hl with rfl | ⟨hhead, -⟩
      · cases hslash
      · exact hc rfl (hhead.symm.trans hslash)
    rw [List.singleton_append, scanLine_comment_cons hclose]
    rfl

theorem scanRest_comment_close (r : Text) :
    scanRest .comment ('*' :: '/' :: r) = push [.plain ' '] (scanRest .code r) := by
  refine scanRest_append (x := ['*', '/']) (by simp) ⟨by decide, by simp⟩ fun l _ => ?_
  simp [scanLine, ScannedLine.cons]

theorem scanRest_blockBody {body : Text} (h : Text.contains body "*/".toList = false) (r : Text) :
    scanRest .comment (body ++ '*' :: '/' :: r) =
      List.replicate (body.count '\n') [] ++ push [.plain ' '] (scanRest .code r) := by
  induction body with
  | nil => exact scanRest_comment_close r
  | cons c body ih =>
    obtain ⟨hc, hb⟩ := Text.contains_commentEnd_cons.1 h
    by_cases hn : c = '\n'
    · subst hn
      rw [List.cons_append, scanRest_newline .comment (by simp), List.count_cons_self, List.replicate_succ, lineStart,
        ih hb]
      rfl
    · have hstar : c = '*' → (body ++ '*' :: '/' :: r).head? ≠ some '/' :=
        fun he => Text.head?_append_commentEnd_ne (hc he) r
      rw [List.cons_append, scanRest_comment_cons hn hstar, ih hb, List.count_cons_of_ne hn]

/-! ## Comments -/

/-- A block comment leaves an empty line for each line feed of its body, and one blank. -/
theorem scanRest_blockComment {body : Text} (h : Text.contains body "*/".toList = false) (after : Text) :
    scanRest .code (CommentStyle.block.text body ++ after) =
      List.replicate (body.count '\n') [] ++ push [.plain ' '] (scanRest .code after) := by
  have hopen : scanRest .code (['/', '*'] ++ (body ++ '*' :: '/' :: after)) =
      push [] (scanRest .comment (body ++ '*' :: '/' :: after)) := by
    refine scanRest_append (by simp) ⟨by decide, by simp⟩ fun l _ => ?_
    simp [scanLine]
  have htext : CommentStyle.block.text body ++ after = ['/', '*'] ++ (body ++ '*' :: '/' :: after) := by
    simp [CommentStyle.text]
  rw [htext, hopen, push_nil (scanRest_ne_nil _ _), scanRest_blockBody h]

theorem scanRest_lineBody {style : CommentStyle} {body after : Text} (hs : style ≠ .block)
    (h : style.Encloses body after) : scanRest .code (style.text body ++ after) = scanRest .code after := by
  cases style with
  | block => exact absurd rfl hs
  | slashes =>
    show scanRest .code (['/', '/'] ++ (body ++ after)) = _
    exact scanRest_lineComment (by simp) (by decide) h.1 (by simp) (fun l => by simp [scanLine]) h.2
  | hash =>
    show scanRest .code (['#'] ++ (body ++ after)) = _
    exact scanRest_lineComment (by simp) (by decide) h.1 (by simp) (fun l => by simp [scanLine]) h.2

theorem scanRest_comment {style : CommentStyle} {b c after : Text} (hb : style.Encloses b after)
    (hc : style.Encloses c after) (hcount : b.count '\n' = c.count '\n') :
    scanRest .code (style.text b ++ after) = scanRest .code (style.text c ++ after) := by
  cases style with
  | block => rw [scanRest_blockComment hb, scanRest_blockComment hc, hcount]
  | slashes => rw [scanRest_lineBody (by simp) hb, scanRest_lineBody (by simp) hc]
  | hash => rw [scanRest_lineBody (by simp) hb, scanRest_lineBody (by simp) hc]

/-- Texts that differ in the body of one comment are the same source. -/
theorem ofText_comment {style : CommentStyle} {b c before after : Text} (path : Text)
    (h : StandsInCode (before ++ (style.text b ++ after)) (style.text b ++ after)) (hb : style.Encloses b after)
    (hc : style.Encloses c after) (hcount : b.count '\n' = c.count '\n') :
    Source.ofText path (before ++ (style.text b ++ after)) =
      Source.ofText path (before ++ (style.text c ++ after)) := by
  have hne : ∀ body, style.text body ++ after ≠ [] := fun body => by simp [style.text_ne_nil]
  have hhead : (style.text c ++ after).head? = (style.text b ++ after).head? := by
    rw [List.head?_append, List.head?_append, style.head?_text c b]
  obtain ⟨done, p, hleaves⟩ := h.exists_scanLines
  rw [Source.ofText, Source.ofText, hleaves _ (hne b) rfl, hleaves _ (hne c) hhead, scanRest_comment hb hc hcount]

end ThriftModules.Idl
