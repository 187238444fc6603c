import ThriftModules.Text.Utf8

/-!
# Bytes of characters

* `encode_cons_ascii` : a character of ASCII is encoded as one byte (`toUInt8_inj`, `ofUInt8_toUInt8`);
* `le_of_mem_encodeChar`, `exists_encodeChar` : the other bytes of an encoding are none of ASCII;
* `head?_encode`, `encode_append`, `length_encode` : the encoding of a text.
-/

namespace ThriftModules.Text.Utf8

set_option autoImplicit false

section
variable {c d : Char} {t : Text}

theorem encode_cons (c : Char) (t : Text) : encode (c :: t) = String.utf8EncodeChar c ++ encode t := List.flatMap_cons

theorem encode_append (t u : Text) : encode (t ++ u) = encode t ++ encode u := List.flatMap_append

theorem length_encode (t : Text) : (encode t).length = byteLength t := by
  induction t with
  | nil => rfl
  | cons c t ih => rw [encode_cons, List.length_append, String.length_utf8EncodeChar, ih, byteLength]

theorem encodeChar_ascii (h : c.toNat < 128) : String.utf8EncodeChar c = [c.toUInt8] := by
  refine String.utf8EncodeChar_eq_singleton (Char.utf8Size_eq_one_iff.2 (UInt32.le_iff_toNat_le.2 ?_))
  exact Nat.le_of_lt_succ h

theorem encode_cons_ascii (h : c.toNat < 128) (t : Text) : encode (c :: t) = c.toUInt8 :: encode t := by
  rw [encode_cons, encodeChar_ascii h]
  rfl

theorem ofUInt8_toUInt8 (h : c.toNat < 128) : Char.ofUInt8 c.toUInt8 = c := by
  refine Char.ext (UInt32.toNat_inj.1 ?_)
  show c.val.toNat % 256 = c.val.toNat
  exact Nat.mod_eq_of_lt (Nat.lt_trans h (by decide))

theorem le_of_mem_encodeChar (h : 128 ≤ c.toNat) : ∀ b ∈ String.utf8EncodeChar c, 128 ≤ b.toNat := by
  have hv : ¬c.val.toNat ≤ 127 := Nat.not_le_of_lt h
  intro b hb
  simp only [String.utf8EncodeChar, hv, if_false] at hb
  split at hb
  · simp only [List.mem_cons, List.not_mem_nil, or_false] at hb
    rcases hb with rfl | rfl <;> simp [UInt8.toNat_ofNat'] <;> omega
  split at hb
  · simp only [List.mem_cons, List.not_mem_nil, or_false] at hb
    rcases hb with rfl | rfl | rfl <;> simp [UInt8.toNat_ofNat'] <;> omega
  · simp only [List.mem_cons, List.not_mem_nil, or_false] at hb
    rcases hb with rfl | rfl | rfl | rfl <;> simp [UInt8.toNat_ofNat'] <;> omega

theorem toNat_toUInt8 (h : c.toNat < 128) : c.toUInt8.toNat < 128 := by
  show c.val.toNat % 256 < 128
  exact Nat.lt_of_le_of_lt (Nat.mod_le _ _) h

/-- The byte of an ASCII character stands only where the character does. -/
theorem mem_encodeChar (hd : d.toNat < 128) (h : d.toUInt8 ∈ String.utf8EncodeChar c) : c = d := by
  by_cases hc : c.toNat < 128
  · rw [encodeChar_ascii hc, List.mem_singleton] at h
    rw [← ofUInt8_toUInt8 hc, ← h, ofUInt8_toUInt8 hd]
  · have hhigh := le_of_mem_encodeChar (Nat.le_of_not_lt hc) _ h
    exact absurd (toNat_toUInt8 hd) (Nat.not_lt_of_le hhigh)

theorem toUInt8_inj (hc : c.toNat < 128) (hd : d.toNat < 128) : c.toUInt8 = d.toUInt8 ↔ c = d := by
  refine ⟨fun h => ?_, congrArg _⟩
  rw [← ofUInt8_toUInt8 hc, h, ofUInt8_toUInt8 hd]

theorem utf8Size_ascii (h : c.toNat < 128) : c.utf8Size = 1 := by
  rw [← String.length_utf8EncodeChar, encodeChar_ascii h]
  rfl

/-- The bytes of a character behind its first one are none of ASCII. -/
theorem exists_encodeChar (c : Char) :
    ∃ b high, String.utf8EncodeChar c = b :: high ∧ high.length + 1 = c.utf8Size ∧ ∀ x ∈ high, 128 ≤ x.toNat := by
  by_cases hc : c.toNat < 128
  · have hsize := String.length_utf8EncodeChar c
    rw [encodeChar_ascii hc] at hsize
    exact ⟨_, [], encodeChar_ascii hc, hsize, List.forall_mem_nil _⟩
  · have hhigh := le_of_mem_encodeChar (Nat.le_of_not_lt hc)
    have hsize := String.length_utf8EncodeChar c
    cases hbytes : String.utf8EncodeChar c with
    | nil =>
      have := c.utf8Size_pos
      simp [hbytes] at hsize
      omega
    | cons b high =>
      rw [hbytes] at hsize hhigh
      exact ⟨b, high, rfl, hsize, fun x hx => hhigh x (List.mem_cons_of_mem b hx)⟩

theorem encode_ne_nil (h : t ≠ []) : encode t ≠ [] := by
  obtain ⟨c, t, rfl⟩ := List.exists_cons_of_ne_nil h
  obtain ⟨b, high, hbytes, -, -⟩ := exists_encodeChar c
  rw [encode_cons, hbytes]
  exact List.cons_ne_nil _ _

theorem head?_encode (hd : d.toNat < 128) (h : (encode t).head? = some d.toUInt8) : t.head? = some d := by
  cases t with
  | nil => cases h
  | cons c t =>
    obtain ⟨b, high, hbytes, -, -⟩ := exists_encodeChar c
    rw [encode_cons, hbytes] at h
    have hmem : d.toUInt8 ∈ String.utf8EncodeChar c := by
      rw [hbytes, ← Option.some.inj h]
      exact List.mem_cons_self
    rw [mem_encodeChar hd hmem]
    rfl

end

end ThriftModules.Text.Utf8
