import ThriftModules.Proofs.Script.Lexeme
import ThriftModules.Proofs.Text.Utf8
import ThriftModules.Script.Bytes

/-!
# Byte offsets in a script

* `slice_eq_ok_iff` : a slice succeeds exactly between two places where characters start, in order;
* `literalEndFrom_body`, `literalEnd_lexeme` : the scan by bytes goes on right behind a literal, also where a backslash
  skips a part of a character;
* `lineCommentEnd_lexeme`, `blockCommentEnd_closed`, `blockCommentEnd_open` : and right behind a comment.
-/

namespace ThriftModules.Script.ByteScan

set_option autoImplicit false

open Text.Utf8 (encode)

@[simp] theorem ok_bind {ε α β : Type} (a : α) (f : α → Except ε β) : (Except.ok a >>= f) = f a := rfl

/-! ## Slices -/

theorem splitAt?_eq_some {t a b : Text} {n : Nat} :
    splitAt? t n = some (a, b) ↔ t = a ++ b ∧ Text.byteLength a = n := by
  fun_induction splitAt? t n generalizing a with
  | case1 t =>
    constructor
    · rintro ⟨⟩
      exact ⟨rfl, rfl⟩
    · rintro ⟨rfl, hn⟩
      cases a with
      | nil => rfl
      | cons c a =>
        have := c.utf8Size_pos
        rw [Text.byteLength] at hn
        omega
  | case2 n =>
    refine ⟨fun h => absurd h (Option.some_ne_none _).symm, ?_⟩
    rintro ⟨h, hn⟩
    rw [(List.append_eq_nil_iff.1 h.symm).1] at hn
    cases hn
  | case3 c t n hc ih =>
    simp only [Option.map_eq_some_iff, Prod.exists, Prod.mk.injEq]
    constructor
    · rintro ⟨u, v, hu, rfl, rfl⟩
      obtain ⟨rfl, hn⟩ := ih.1 hu
      exact ⟨rfl, by rw [Text.byteLength, hn]; omega⟩
    · rintro ⟨h, hn⟩
      cases a with
      | nil => cases hn
      | cons d a =>
        obtain ⟨rfl, rfl⟩ := List.cons.inj h
        rw [Text.byteLength] at hn
        exact ⟨a, b, ih.2 ⟨rfl, by omega⟩, rfl, rfl⟩
  | case4 c t n hc =>
    refine ⟨fun h => absurd h (Option.some_ne_none _).symm, ?_⟩
    rintro ⟨h, hn⟩
    cases a with
    | nil => cases hn
    | cons d a =>
      obtain ⟨rfl, -⟩ := List.cons.inj h
      rw [Text.byteLength] at hn
      omega

/-- A slice succeeds exactly if its ends are in order, and each at the start of a character or at the end. -/
theorem slice_eq_ok_iff {t u : Text} {start stop : Nat} :
    slice t start stop = .ok u ↔
      ∃ before after, t = before ++ (u ++ after) ∧ Text.byteLength before = start ∧
        Text.byteLength (before ++ u) = stop := by
  rw [slice]
  constructor
  · intro h
    split at h
    · next s hs =>
      cases h
      obtain ⟨⟨a, after⟩, ha, hb⟩ := Option.bind_eq_some_iff.1 hs
      obtain ⟨rfl, hstop⟩ := splitAt?_eq_some.1 ha
      obtain ⟨rfl, hstart⟩ := splitAt?_eq_some.1 (show splitAt? a start = some (s.1, s.2) from hb)
      exact ⟨s.1, after, List.append_assoc _ _ _, hstart, hstop⟩
    · cases h
  · rintro ⟨before, after, rfl, hstart, hstop⟩
    have hend : splitAt? (before ++ (u ++ after)) stop = some (before ++ u, after) :=
      splitAt?_eq_some.2 ⟨(List.append_assoc _ _ _).symm, hstop⟩
    have hfront : splitAt? (before ++ u) start = some (before, u) := splitAt?_eq_some.2 ⟨rfl, hstart⟩
    rw [hend, Option.bind_some, hfront]

/-- The offset between the two bytes of a character. -/
example : slice "a\u00e9".toList 1 2 = .error (.slice 1 2) := rfl

/-! ## Bytes in front of the scan -/

section
variable {bytes xs bs : List UInt8} {b : UInt8} {i : Nat}

theorem drop_add (h : bytes.drop i = xs ++ bs) : bytes.drop (i + xs.length) = bs := by
  rw [← List.drop_drop, h, List.drop_left]

theorem drop_succ (h : bytes.drop i = b :: bs) : bytes.drop (i + 1) = bs :=
  drop_add (show bytes.drop i = [b] ++ bs from h)

theorem getElem?_of_drop (h : bytes.drop i = b :: bs) : bytes[i]? = some b := by
  rw [← List.head?_drop, h]
  rfl

theorem lt_of_drop (h : bytes.drop i = b :: bs) : i < bytes.length :=
  (List.getElem?_eq_some_iff.1 (getElem?_of_drop h)).1

end

/-! ## Literals -/

section
variable {bytes xs bs : List UInt8} {b : UInt8} {q c : Char} {body : Text} {i : Nat}

theorem literalEndFrom_nil {quote : UInt8} (h : bytes.length ≤ i) :
    literalEndFrom bytes quote i = .ok bytes.length := by
  rw [literalEndFrom, dif_neg (Nat.not_lt_of_le h)]
  rfl

theorem literalEndFrom_cons {quote : UInt8} (h : bytes.drop i = b :: bs) :
    literalEndFrom bytes quote i =
      if b = '\\'.toUInt8 then literalEndFrom bytes quote (i + 2)
      else if b = quote then .ok (i + 1)
      else if b = '\n'.toUInt8 ∧ quote ≠ Text.backtick.toUInt8 then .ok i
      else literalEndFrom bytes quote (i + 1) := by
  rw [literalEndFrom, dif_pos (lt_of_drop h), byteAt_eq_ok.2 (getElem?_of_drop h)]
  rfl

theorem toNat_lt_of_isQuote (hq : Text.isQuote q = true) : q.toNat < 128 := by
  simp only [Text.isQuote, Bool.or_eq_true, beq_iff_eq] at hq
  rcases hq with (rfl | rfl) | rfl <;> decide

theorem literalEndFrom_high (hq : Text.isQuote q = true) (hxs : ∀ x ∈ xs, 128 ≤ x.toNat)
    (h : bytes.drop i = xs ++ bs) :
    literalEndFrom bytes q.toUInt8 i = literalEndFrom bytes q.toUInt8 (i + xs.length) := by
  induction xs generalizing i with
  | nil => rfl
  | cons x xs ih =>
    have hx := hxs x List.mem_cons_self
    have hne : ∀ d : Char, d.toNat < 128 → x ≠ d.toUInt8 := by
      rintro d hd rfl
      exact absurd (Text.Utf8.toNat_toUInt8 hd) (Nat.not_lt_of_le hx)
    rw [literalEndFrom_cons h, if_neg (hne '\\' (by decide)), if_neg (hne q (toNat_lt_of_isQuote hq)),
      if_neg fun e => hne '\n' (by decide) e.1, ih (fun y hy => hxs y (List.mem_cons_of_mem x hy)) (drop_succ h),
      List.length_cons, Nat.add_assoc, Nat.add_comm 1]

theorem literalEndFrom_char (hq : Text.isQuote q = true) (hslash : c ≠ '\\') (hquote : c ≠ q)
    (hline : c = '\n' → q = Text.backtick) (h : bytes.drop i = String.utf8EncodeChar c ++ bs) :
    literalEndFrom bytes q.toUInt8 i = literalEndFrom bytes q.toUInt8 (i + c.utf8Size) := by
  by_cases hc : c.toNat < 128
  · have hne : ∀ d : Char, d.toNat < 128 → c ≠ d → c.toUInt8 ≠ d.toUInt8 := fun d hd hcd he =>
      hcd ((Text.Utf8.toUInt8_inj hc hd).1 he)
    have hfeed : ¬(c.toUInt8 = '\n'.toUInt8 ∧ q.toUInt8 ≠ Text.backtick.toUInt8) := by
      rintro ⟨he, hback⟩
      refine hne '\n' (by decide) (fun e => hback ?_) he
      rw [hline e]
    rw [Text.Utf8.encodeChar_ascii hc] at h
    rw [literalEndFrom_cons h, if_neg (hne _ (by decide) hslash), if_neg (hne _ (toNat_lt_of_isQuote hq) hquote),
      if_neg hfeed, Text.Utf8.utf8Size_ascii hc]
  · rw [literalEndFrom_high hq (Text.Utf8.le_of_mem_encodeChar (Nat.le_of_not_lt hc)) h,
      String.length_utf8EncodeChar]

/-- A backslash and the character behind it are passed, although only the first byte of that character is skipped. -/
theorem literalEndFrom_escape (hq : Text.isQuote q = true)
    (h : bytes.drop i = '\\'.toUInt8 :: (String.utf8EncodeChar c ++ bs)) :
    literalEndFrom bytes q.toUInt8 i = literalEndFrom bytes q.toUInt8 (i + (1 + c.utf8Size)) := by
  obtain ⟨b, high, hbytes, hsize, hhigh⟩ := Text.Utf8.exists_encodeChar c
  rw [literalEndFrom_cons h, if_pos rfl]
  rw [hbytes] at h
  rw [literalEndFrom_high hq hhigh (drop_succ (drop_succ h)), ← hsize]
  congr 1
  omega

theorem literalEndFrom_body (hq : Text.isQuote q = true) (hb : Piece.isLiteralBody q body = true)
    (h : bytes.drop i = encode body ++ bs) :
    literalEndFrom bytes q.toUInt8 i = literalEndFrom bytes q.toUInt8 (i + Text.byteLength body) := by
  fun_induction Piece.isLiteralBody q body generalizing i with
  | case1 => rfl
  | case2 c r ih =>
    have hfront : bytes.drop i = (['\\'.toUInt8] ++ String.utf8EncodeChar c) ++ (encode r ++ bs) := by
      rw [h, Text.Utf8.encode_cons, Text.Utf8.encode_cons, Text.Utf8.encodeChar_ascii (by decide)]
      simp only [List.append_assoc]
    have hrest := drop_add hfront
    rw [List.length_append, List.length_singleton, String.length_utf8EncodeChar] at hrest
    rw [List.append_assoc] at hfront
    rw [literalEndFrom_escape hq hfront, ih hb hrest]
    simp only [Text.byteLength, Nat.add_assoc]
    rfl
  | case3 c r hescape ih =>
    simp only [Bool.and_eq_true, Bool.or_eq_true, bne_iff_ne, beq_iff_eq] at hb
    obtain ⟨⟨⟨hslash, hquote⟩, hline⟩, hb⟩ := hb
    rw [Text.Utf8.encode_cons, List.append_assoc] at h
    have hrest := drop_add h
    rw [String.length_utf8EncodeChar] at hrest
    rw [literalEndFrom_char hq hslash hquote (fun e => hline.resolve_left (not_not.2 e)) h, ih hb hrest,
      Text.byteLength, Nat.add_assoc]

/-- The scan goes on right behind a literal, and in front of the line feed that breaks one. -/
theorem literalEnd_lexeme {t r : Text} (hl : (Lexeme.literal t).IsRead r.head?)
    (h : bytes.drop i = encode t ++ encode r) : literalEnd bytes i = .ok (i + Text.byteLength t) := by
  generalize hnext : r.head? = next at hl
  have hstart : ∀ {q : Char} {body : Text} (tail : Text), Text.isQuote q = true → Piece.isLiteralBody q body = true →
      t = q :: (body ++ tail) →
      literalEnd bytes i = literalEndFrom bytes q.toUInt8 (i + 1 + Text.byteLength body) ∧
        bytes.drop (i + 1 + Text.byteLength body) = encode tail ++ encode r ∧
        i + 1 + Text.byteLength body + Text.byteLength tail = i + Text.byteLength t := by
    rintro q body tail hq hb rfl
    have hascii := toNat_lt_of_isQuote hq
    rw [Text.Utf8.encode_cons_ascii hascii, List.cons_append, Text.Utf8.encode_append, List.append_assoc] at h
    have hbody := drop_succ h
    have htail := drop_add hbody
    rw [Text.Utf8.length_encode] at htail
    refine ⟨?_, htail, ?_⟩
    · rw [literalEnd, byteAt_eq_ok.2 (getElem?_of_drop h), ok_bind, literalEndFrom_body hq hb hbody]
    · rw [Text.byteLength, Text.Utf8.utf8Size_ascii hascii, byteLength_append]
      omega
  have hquote : ∀ {q : Char}, Text.isQuote q = true → q.toUInt8 ≠ '\\'.toUInt8 := by
    intro q hq he
    rw [(Text.Utf8.toUInt8_inj (toNat_lt_of_isQuote hq) (by decide)).1 he] at hq
    exact absurd hq (by decide)
  cases hl with
  | @literal q body _ hq hb =>
    obtain ⟨hfrom, htail, hstop⟩ := hstart _ hq hb rfl
    rw [Text.Utf8.encode_cons_ascii (toNat_lt_of_isQuote hq)] at htail
    rw [hfrom, literalEndFrom_cons htail, if_neg (hquote hq), if_pos rfl, ← hstop, Text.byteLength,
      Text.Utf8.utf8Size_ascii (toNat_lt_of_isQuote hq)]
    rfl
  | @broken q body hq hb hline =>
    obtain ⟨r, rfl⟩ := List.head?_eq_some_iff.1 hnext
    obtain ⟨hfrom, htail, hstop⟩ := hstart [] hq hb (by rw [List.append_nil])
    rw [Text.Utf8.encode_cons_ascii (by decide)] at htail
    have hfeed : '\n'.toUInt8 ≠ q.toUInt8 := by
      intro he
      rw [← (Text.Utf8.toUInt8_inj (by decide) (toNat_lt_of_isQuote hq)).1 he] at hq
      exact absurd hq (by decide)
    have hback : q.toUInt8 ≠ Text.backtick.toUInt8 := fun he =>
      hline ((Text.Utf8.toUInt8_inj (toNat_lt_of_isQuote hq) (by decide)).1 he)
    rw [hfrom, literalEndFrom_cons htail, if_neg (by decide), if_neg hfeed, if_pos ⟨rfl, hback⟩, ← hstop]
    rfl
  | @openLiteral q body tail hq hb ht =>
    obtain rfl := List.head?_eq_none_iff.1 hnext
    obtain ⟨hfrom, htail, hstop⟩ := hstart _ hq hb rfl
    have hlength := congrArg List.length h
    rw [List.length_drop, List.length_append, Text.Utf8.length_encode, Text.byteLength] at hlength
    have hpos := q.utf8Size_pos
    have hend : bytes.length = i + Text.byteLength (q :: (body ++ tail)) := by
      rw [Text.byteLength]
      simp [encode] at hlength
      omega
    rw [hfrom, ← hend]
    rcases ht with rfl | rfl
    · exact literalEndFrom_nil (List.drop_eq_nil_iff.1 htail)
    · -- the backslash skips a byte that is not there
      rw [Text.Utf8.encode_cons_ascii (by decide)] at htail
      rw [literalEndFrom_cons htail, if_pos rfl]
      refine literalEndFrom_nil ?_
      rw [hend, ← hstop]
      exact Nat.add_le_add_left (by decide) _

end

/-! ## Comments -/

section
variable {bytes xs bs : List UInt8} {b : UInt8} {c : Char} {t r body : Text} {i : Nat}

theorem length_of_drop (h : bytes.drop i = xs) (hne : xs ≠ []) : bytes.length = i + xs.length := by
  have hlength := congrArg List.length h
  have hpos := List.length_pos_iff.2 hne
  rw [List.length_drop] at hlength
  omega

/-- The scan goes on at the line feed behind a line comment, or at the end. -/
theorem lineCommentEnd_lexeme (ht : ∀ c ∈ t, c ≠ '\n') (hne : t ≠ []) (hr : r = [] ∨ r.head? = some '\n')
    (h : bytes.drop i = encode t ++ encode r) : lineCommentEnd bytes i = .ok (i + Text.byteLength t) := by
  have hnone : (encode t).findIdx? (· == '\n'.toUInt8) = none := by
    refine List.findIdx?_eq_none_iff.2 fun x hx => ?_
    obtain ⟨c, hc, hx⟩ := List.mem_flatMap.1 hx
    refine beq_eq_false_iff_ne.2 ?_
    rintro rfl
    exact ht c hc (Text.Utf8.mem_encodeChar (by decide) hx)
  have hlength := length_of_drop h (List.append_ne_nil_of_left_ne_nil (Text.Utf8.encode_ne_nil hne) _)
  rw [List.length_append, Text.Utf8.length_encode] at hlength
  rw [lineCommentEnd, bytesFrom_of_le (by omega), ok_bind, h, List.findIdx?_append, hnone, Option.none_or]
  rcases hr with rfl | hr
  · exact congrArg Except.ok hlength
  · obtain ⟨r, rfl⟩ := List.head?_eq_some_iff.1 hr
    rw [Text.Utf8.encode_cons_ascii (by decide), List.findIdx?_cons, if_pos (by decide), Option.map_some, Nat.zero_add,
      Text.Utf8.length_encode]
    rfl

theorem closing?_cons (b : UInt8) (bs : List UInt8) :
    closing? (b :: bs) =
      if b = '*'.toUInt8 ∧ bs.head? = some '/'.toUInt8 then some 0 else (closing? bs).map (· + 1) := by
  cases bs with
  | nil => simp [closing?]
  | cons d bs => simp [closing?, List.findIdx?_cons]

theorem closing?_append (hxs : ∀ x ∈ xs, x ≠ '*'.toUInt8) :
    closing? (xs ++ bs) = (closing? bs).map (· + xs.length) := by
  induction xs with
  | nil => simp
  | cons x xs ih =>
    rw [List.cons_append, closing?_cons, if_neg fun e => hxs x List.mem_cons_self e.1,
      ih fun y hy => hxs y (List.mem_cons_of_mem x hy), Option.map_map]
    rfl

theorem closing?_encode (hbody : Text.contains body "*/".toList = false) (hbs : bs.head? ≠ some '/'.toUInt8) :
    closing? (encode body ++ bs) = (closing? bs).map (· + Text.byteLength body) := by
  induction body with
  | nil => simp [encode, Text.byteLength]
  | cons c body ih =>
    obtain ⟨hclose, hrest⟩ := Text.contains_commentEnd_cons.1 hbody
    have hnext : c = '*' → (encode body ++ bs).head? ≠ some '/'.toUInt8 := by
      rintro rfl hhead
      rw [List.head?_append, Option.or_eq_some_iff] at hhead
      rcases hhead with hhead | ⟨-, hhead⟩
      · exact hclose rfl (Text.Utf8.head?_encode (d := '/') (by decide) hhead)
      · exact hbs hhead
    by_cases hstar : c = '*'
    · rw [hstar, Text.Utf8.encode_cons_ascii (by decide), List.cons_append, closing?_cons,
        if_neg fun e => hnext hstar e.2, ih hrest, Option.map_map, Text.byteLength, Nat.add_comm]
      rfl
    · have hbytes : ∀ x ∈ String.utf8EncodeChar c, x ≠ '*'.toUInt8 := by
        rintro x hx rfl
        exact hstar (Text.Utf8.mem_encodeChar (by decide) hx)
      rw [Text.Utf8.encode_cons, List.append_assoc, closing?_append hbytes, ih hrest, Option.map_map,
        String.length_utf8EncodeChar, Text.byteLength, Nat.add_comm]
      congr 1
      funext n
      exact (Nat.add_assoc _ _ _)

/-- The scan goes on behind the marker that closes a comment, or at the end. -/
theorem blockCommentEnd_eq (h : bytes.drop i = encode ['/', '*'] ++ bs) :
    blockCommentEnd bytes i = .ok (((closing? bs).map fun k => i + 2 + k + 2).getD bytes.length) := by
  have hlength := length_of_drop h (List.append_ne_nil_of_left_ne_nil (Text.Utf8.encode_ne_nil (by decide)) _)
  rw [List.length_append] at hlength
  have hle : i + 2 ≤ bytes.length := by
    rw [hlength]
    exact Nat.add_le_add_left (Nat.le_add_right 2 _) i
  have hrest : bytes.drop (i + 2) = bs := drop_add h
  rw [blockCommentEnd, bytesFrom_of_le hle, ok_bind, hrest]
  cases closing? bs <;> rfl

theorem blockCommentEnd_closed (hbody : Text.contains body "*/".toList = false)
    (h : bytes.drop i = encode ('/' :: '*' :: (body ++ ['*', '/'])) ++ bs) :
    blockCommentEnd bytes i = .ok (i + Text.byteLength ('/' :: '*' :: (body ++ ['*', '/']))) := by
  have htext : '/' :: '*' :: (body ++ ['*', '/']) = ['/', '*'] ++ (body ++ ['*', '/']) := rfl
  have hmarker : encode ['*', '/'] = ['*'.toUInt8, '/'.toUInt8] := rfl
  rw [htext, Text.Utf8.encode_append, Text.Utf8.encode_append, hmarker, List.append_assoc, List.append_assoc] at h
  have hhead : (['*'.toUInt8, '/'.toUInt8] ++ bs).head? ≠ some '/'.toUInt8 := by
    show some '*'.toUInt8 ≠ some '/'.toUInt8
    decide
  have hclosing : closing? (['*'.toUInt8, '/'.toUInt8] ++ bs) = some 0 := by
    rw [List.cons_append, closing?_cons, if_pos ⟨rfl, rfl⟩]
  have hbytes : Text.byteLength ['/', '*'] = 2 ∧ Text.byteLength ['*', '/'] = 2 := by decide
  rw [blockCommentEnd_eq h, closing?_encode hbody hhead, hclosing, htext, byteLength_append, byteLength_append,
    hbytes.1, hbytes.2]
  simp only [Option.map_some, Option.getD_some, Nat.zero_add, Nat.add_assoc]

theorem blockCommentEnd_open (hbody : Text.contains body "*/".toList = false)
    (h : bytes.drop i = encode ('/' :: '*' :: body)) :
    blockCommentEnd bytes i = .ok (i + Text.byteLength ('/' :: '*' :: body)) := by
  have hlength := length_of_drop h (Text.Utf8.encode_ne_nil (List.cons_ne_nil _ _))
  have hnone : closing? (encode body ++ []) = none := closing?_encode hbody (by decide)
  rw [List.append_nil] at hnone
  have hopened : bytes.drop i = encode ['/', '*'] ++ encode body := h
  rw [blockCommentEnd_eq hopened, hnone, ← Text.Utf8.length_encode ('/' :: '*' :: body), ← hlength]
  rfl

end

end ThriftModules.Script.ByteScan
