import Mathlib.Tactic.SplitIfs
import ThriftModules.Proofs.Text.Utf8

/-!
# Bytes that encode a text

* `Spells` : the bytes of one character, by their ranges;
* `encodeChar_of_spells`, `spells_encodeChar` : a character is encoded as the bytes that spell it;
* `decodeFrom_spells`, `exists_spells` : they are read as the character, and nothing else is read without a gap;
* `decode?_eq_some_iff` : bytes are decoded to a text exactly if they are its encoding.
-/

namespace ThriftModules.Text.Utf8

set_option autoImplicit false

/-! ## The bytes of a character -/

/-- The byte may follow the first byte of a character. -/
def Follows (b : UInt8) : Prop := 0x80 ≤ b.toNat ∧ b.toNat ≤ 0xBF

/-- A code with six more bits, those of the next byte. -/
def extend (v : Nat) (b : UInt8) : Nat := v * 64 + (b.toNat - 0x80)

/-- The bytes spell the character with the code. Overlong forms, surrogates and codes beyond the last one are left
out. -/
inductive Spells : List UInt8 → Nat → Prop where
  | one {a : UInt8} (ha : a.toNat < 0x80) : Spells [a] a.toNat
  | two {a b : UInt8} (ha : 0xC2 ≤ a.toNat) (ha' : a.toNat < 0xE0) (hb : Follows b) :
      Spells [a, b] (extend (a.toNat - 0xC0) b)
  | three {a b c : UInt8} (ha : 0xE0 ≤ a.toNat) (ha' : a.toNat < 0xF0)
      (hb : (if a.toNat = 0xE0 then 0xA0 else 0x80) ≤ b.toNat ∧ b.toNat ≤ if a.toNat = 0xED then 0x9F else 0xBF)
      (hc : Follows c) : Spells [a, b, c] (extend (extend (a.toNat - 0xE0) b) c)
  | four {a b c d : UInt8} (ha : 0xF0 ≤ a.toNat) (ha' : a.toNat < 0xF5)
      (hb : (if a.toNat = 0xF0 then 0x90 else 0x80) ≤ b.toNat ∧ b.toNat ≤ if a.toNat = 0xF4 then 0x8F else 0xBF)
      (hc : Follows c) (hd : Follows d) : Spells [a, b, c, d] (extend (extend (extend (a.toNat - 0xF0) b) c) d)

section
variable {bs rest : List UInt8} {v : Nat}

theorem toNat_ofNat (hv : v.isValidChar) : (Char.ofNat v).val.toNat = v := by
  unfold Char.ofNat
  rw [dif_pos hv]
  rfl

theorem isValidChar_of_spells (h : Spells bs v) : v.isValidChar := by
  unfold Nat.isValidChar
  cases h with
  | one ha => omega
  | two ha ha' hb =>
    unfold Follows at *
    unfold extend
    omega
  | three ha ha' hb hc =>
    unfold Follows at *
    unfold extend
    split_ifs at hb <;> omega
  | four ha ha' hb hc hd =>
    unfold Follows at *
    unfold extend
    split_ifs at hb <;> omega

theorem encodeChar_of_spells (h : Spells bs v) : String.utf8EncodeChar (Char.ofNat v) = bs := by
  have hv := toNat_ofNat (isValidChar_of_spells h)
  simp only [String.utf8EncodeChar, hv]
  cases h with
  | one ha => rw [if_pos (by omega), UInt8.ofNat_toNat]
  | two ha ha' hb =>
    unfold Follows at hb
    unfold extend
    rw [if_neg (by omega), if_pos (by omega)]
    simp only [List.cons.injEq, ← UInt8.toNat_inj, UInt8.toNat_ofNat', and_true]
    omega
  | @three a b c ha ha' hb hc =>
    unfold Follows at hc
    unfold extend
    have hb' : 0x80 ≤ b.toNat ∧ b.toNat ≤ 0xBF := by split_ifs at hb <;> omega
    have hlong : a.toNat = 0xE0 → 0xA0 ≤ b.toNat := fun h => by simpa [h] using hb.1
    rw [if_neg (by omega), if_neg (by omega), if_pos (by omega)]
    simp only [List.cons.injEq, ← UInt8.toNat_inj, UInt8.toNat_ofNat', and_true]
    omega
  | @four a b c d ha ha' hb hc hd =>
    unfold Follows at hc hd
    unfold extend
    have hb' : 0x80 ≤ b.toNat ∧ b.toNat ≤ 0xBF := by split_ifs at hb <;> omega
    have hlong : a.toNat = 0xF0 → 0x90 ≤ b.toNat := fun h => by simpa [h] using hb.1
    rw [if_neg (by omega), if_neg (by omega), if_neg (by omega)]
    simp only [List.cons.injEq, ← UInt8.toNat_inj, UInt8.toNat_ofNat', and_true]
    omega

theorem spells_of_eq {w : Nat} (h : Spells bs v) (hw : v = w) : Spells bs w := hw ▸ h

theorem spells_encodeChar (c : Char) : Spells (String.utf8EncodeChar c) c.val.toNat := by
  have hvalid := c.valid
  simp only [UInt32.isValidChar, Nat.isValidChar] at hvalid
  simp only [String.utf8EncodeChar]
  generalize c.val.toNat = v at *
  have hbyte : ∀ n < 256, (UInt8.ofNat n).toNat = n := fun n hn => UInt8.toNat_ofNat_of_lt' hn
  have hlast := hbyte (v % 64 + 128) (by omega)
  have hthird := hbyte (v / 64 % 64 + 128) (by omega)
  have hfollows : Follows (UInt8.ofNat (v % 64 + 128)) := by
    unfold Follows
    omega
  split_ifs with h₁ h₂ h₃
  · have ha := hbyte v (by omega)
    have h := Spells.one (a := UInt8.ofNat v) (by omega)
    rwa [ha] at h
  · have ha := hbyte (v / 64 % 32 + 192) (by omega)
    refine spells_of_eq (.two (by omega) (by omega) hfollows) ?_
    unfold extend
    omega
  · have ha := hbyte (v / 4096 % 16 + 224) (by omega)
    refine spells_of_eq (.three (by omega) (by omega) ?_ hfollows) ?_
    · rw [ha, hthird]
      split_ifs <;> omega
    · unfold extend
      omega
  · have ha := hbyte (v / 262144 % 8 + 240) (by omega)
    have hb := hbyte (v / 4096 % 64 + 128) (by omega)
    refine spells_of_eq (.four (by omega) (by omega) ?_ ?_ hfollows) ?_
    · rw [ha, hb]
      split_ifs <;> omega
    · unfold Follows
      omega
    · unfold extend
      omega

end

/-! ## Reading -/

section
variable {p : Partial} {b : UInt8} {bs rest : List UInt8} {v : Nat}

/-- The byte can stand next in the character. -/
def Partial.Takes (p : Partial) (b : UInt8) : Prop := p.least ≤ b.toNat ∧ b.toNat ≤ p.greatest

theorem decodeFrom_cons (o : Option Partial) (b : UInt8) (rest : List UInt8) :
    decodeFrom o (b :: rest) = (stepByte o b.toNat).1 ++ decodeFrom (stepByte o b.toNat).2 rest := by
  cases o <;> rfl

theorem stepByte_takes (hb : p.Takes b) : stepByte (some p) b.toNat =
    if p.missing ≤ 1 then ([some (Char.ofNat (extend p.value b))], none)
    else ([], some ⟨extend p.value b, p.missing - 1, 0x80, 0xBF⟩) := if_pos hb

theorem decodeFrom_last (hp : p.missing = 1) (hb : p.Takes b) :
    decodeFrom (some p) (b :: rest) = some (Char.ofNat (extend p.value b)) :: decodeFrom none rest := by
  rw [decodeFrom_cons, stepByte_takes hb, if_pos (Nat.le_of_eq hp)]
  rfl

theorem decodeFrom_more {n : Nat} (hp : p.missing = n + 2) (hb : p.Takes b) :
    decodeFrom (some p) (b :: rest) = decodeFrom (some ⟨extend p.value b, n + 1, 0x80, 0xBF⟩) rest := by
  rw [decodeFrom_cons, stepByte_takes hb, if_neg (by omega), hp]
  rfl

theorem exists_of_gapless (h : none ∉ decodeFrom (some p) bs) : ∃ b rest, bs = b :: rest ∧ p.Takes b := by
  cases bs with
  | nil => simp [decodeFrom] at h
  | cons b rest =>
    refine ⟨b, rest, rfl, Classical.byContradiction fun hb => h ?_⟩
    unfold Partial.Takes at hb
    rw [decodeFrom_cons, stepByte, if_neg hb]
    exact List.mem_cons_self

theorem decodeFrom_opens (hb : lead b.toNat = .opens p) : decodeFrom none (b :: rest) = decodeFrom (some p) rest := by
  rw [decodeFrom_cons, stepByte, openByte, hb]
  rfl

theorem lead_two {n : Nat} (h : 0xC2 ≤ n) (h' : n < 0xE0) : lead n = .opens ⟨n - 0xC0, 1, 0x80, 0xBF⟩ := by
  rw [lead, if_neg (by omega), if_neg (by omega), if_pos h']

theorem lead_three {n : Nat} (h : 0xE0 ≤ n) (h' : n < 0xF0) :
    lead n = .opens ⟨n - 0xE0, 2, if n = 0xE0 then 0xA0 else 0x80, if n = 0xED then 0x9F else 0xBF⟩ := by
  rw [lead, if_neg (by omega), if_neg (by omega), if_neg (by omega), if_pos h']

theorem lead_four {n : Nat} (h : 0xF0 ≤ n) (h' : n < 0xF5) :
    lead n = .opens ⟨n - 0xF0, 3, if n = 0xF0 then 0x90 else 0x80, if n = 0xF4 then 0x8F else 0xBF⟩ := by
  rw [lead, if_neg (by omega), if_neg (by omega), if_neg (by omega), if_neg (by omega), if_pos h']

theorem lead_eq_invalid {n : Nat} (h : 0x80 ≤ n ∧ n < 0xC2 ∨ 0xF5 ≤ n) : lead n = .invalid := by
  unfold lead
  rcases h with ⟨h, h'⟩ | h
  · rw [if_neg (by omega), if_pos h']
  · rw [if_neg (by omega), if_neg (by omega), if_neg (by omega), if_neg (by omega), if_neg (by omega)]

theorem decodeFrom_spells (h : Spells bs v) (rest : List UInt8) :
    decodeFrom none (bs ++ rest) = some (Char.ofNat v) :: decodeFrom none rest := by
  cases h with
  | one ha =>
    rw [List.cons_append, decodeFrom_cons, stepByte, openByte, lead, if_pos ha]
    rfl
  | two ha ha' hb => exact (decodeFrom_opens (lead_two ha ha')).trans (decodeFrom_last rfl hb)
  | @three a b c ha ha' hb hc =>
    refine (decodeFrom_opens (lead_three ha ha')).trans ?_
    have hb : Partial.Takes ⟨a.toNat - 0xE0, 2, _, _⟩ b := hb
    have hc : Partial.Takes ⟨extend (a.toNat - 0xE0) b, 1, _, _⟩ c := hc
    exact (decodeFrom_more rfl hb).trans (decodeFrom_last rfl hc)
  | @four a b c d ha ha' hb hc hd =>
    refine (decodeFrom_opens (lead_four ha ha')).trans ?_
    have hb : Partial.Takes ⟨a.toNat - 0xF0, 3, _, _⟩ b := hb
    have hc : Partial.Takes ⟨extend (a.toNat - 0xF0) b, 2, _, _⟩ c := hc
    have hd : Partial.Takes ⟨extend (extend (a.toNat - 0xF0) b) c, 1, _, _⟩ d := hd
    exact (decodeFrom_more rfl hb).trans ((decodeFrom_more rfl hc).trans (decodeFrom_last rfl hd))

/-- Bytes that are read without a gap start with those of a character. -/
theorem exists_spells (h : none ∉ decodeFrom none (b :: rest)) :
    ∃ bs v rest', b :: rest = bs ++ rest' ∧ Spells bs v := by
  have hvalid : ¬(0x80 ≤ b.toNat ∧ b.toNat < 0xC2 ∨ 0xF5 ≤ b.toNat) := by
    intro hb
    refine h ?_
    rw [decodeFrom_cons, stepByte, openByte, lead_eq_invalid hb]
    exact List.mem_cons_self
  rcases Nat.lt_or_ge b.toNat 0x80 with hb | hb
  · exact ⟨[b], _, rest, rfl, .one hb⟩
  rcases Nat.lt_or_ge b.toNat 0xE0 with hb₂ | hb₂
  · rw [decodeFrom_opens (lead_two (by omega) hb₂)] at h
    obtain ⟨c, rest, rfl, hc⟩ := exists_of_gapless h
    exact ⟨[b, c], _, rest, rfl, .two (by omega) hb₂ hc⟩
  rcases Nat.lt_or_ge b.toNat 0xF0 with hb₃ | hb₃
  · rw [decodeFrom_opens (lead_three hb₂ hb₃)] at h
    obtain ⟨c, rest, rfl, hc⟩ := exists_of_gapless h
    rw [decodeFrom_more rfl hc] at h
    obtain ⟨d, rest, rfl, hd⟩ := exists_of_gapless h
    exact ⟨[b, c, d], _, rest, rfl, .three hb₂ hb₃ hc hd⟩
  · have hb₄ : b.toNat < 0xF5 := by omega
    rw [decodeFrom_opens (lead_four hb₃ hb₄)] at h
    obtain ⟨c, rest, rfl, hc⟩ := exists_of_gapless h
    rw [decodeFrom_more rfl hc] at h
    obtain ⟨d, rest, rfl, hd⟩ := exists_of_gapless h
    rw [decodeFrom_more rfl hd] at h
    obtain ⟨e, rest, rfl, he⟩ := exists_of_gapless h
    exact ⟨[b, c, d, e], _, rest, rfl, .four hb₃ hb₄ hc hd he⟩

end

/-! ## Texts -/

theorem decode_encode (t : Text) : decode (encode t) = t.map some := by
  unfold decode
  induction t with
  | nil => rfl
  | cons c t ih =>
    rw [encode_cons, decodeFrom_spells (spells_encodeChar c), ih, List.map_cons]
    exact congrArg (some · :: _) (Char.ofNat_toNat c)

theorem exists_encode {bs : List UInt8} (h : none ∉ decodeFrom none bs) : ∃ t, bs = encode t := by
  induction hn : bs.length using Nat.strongRecOn generalizing bs with
  | ind n ih =>
    cases bs with
    | nil => exact ⟨[], rfl⟩
    | cons b rest =>
      obtain ⟨front, v, back, hbytes, hspells⟩ := exists_spells h
      rw [hbytes, decodeFrom_spells hspells, List.mem_cons, not_or] at h
      have hfront : front ≠ [] := by cases hspells <;> simp
      have hshort : back.length < n := by
        rw [← hn, hbytes, List.length_append]
        have := List.length_pos_iff.2 hfront
        omega
      obtain ⟨t, ht⟩ := ih back.length hshort h.2 rfl
      exact ⟨Char.ofNat v :: t, by rw [hbytes, encode_cons, encodeChar_of_spells hspells, ht]⟩

/-- Bytes are decoded to a text exactly if they are its encoding. -/
theorem decode?_eq_some_iff {bs : List UInt8} {t : Text} : decode? bs = some t ↔ bs = encode t := by
  have hencode : ∀ t, decode? (encode t) = some t := by
    intro t
    unfold decode?
    rw [decode_encode]
    simp [List.filterMap_map]
  refine ⟨fun h => ?_, fun h => h ▸ hencode t⟩
  have hgapless : none ∉ decodeFrom none bs := by
    unfold decode? at h
    dsimp only at h
    split_ifs at h with hall
    intro hnone
    have hsome := List.all_eq_true.1 hall none hnone
    cases hsome
  obtain ⟨t', rfl⟩ := exists_encode hgapless
  rw [hencode] at h
  rw [Option.some.inj h]

end ThriftModules.Text.Utf8
