import Mathlib.Tactic.SplitIfs
import ThriftModules.Proofs.Text.Utf8

/-!
# Texts are ordered as their bytes

* `encodeChar_lt` : of two characters the lesser one has the lesser encoding, whatever stands behind them;
* `encode_lt_encode` : so has the lesser of two texts (`encode_lt_encode_iff`).
-/

namespace ThriftModules.Text.Utf8

set_option autoImplicit false

/-! ## Characters -/

/-- Of two numbers in base 64, the lesser one has the lesser digit where they first differ. -/
theorem lt_digits {v w : Nat} (h : v < w) : v / 64 < w / 64 ∨ v / 64 = w / 64 ∧ v % 64 < w % 64 := by omega

theorem cons_ofNat_lt {x y : Nat} {s t : List UInt8} (hx : x < 256) (hy : y < 256) :
    UInt8.ofNat x :: s < UInt8.ofNat y :: t ↔ x < y ∨ x = y ∧ s < t := by
  rw [List.cons_lt_cons_iff, UInt8.lt_iff_toNat_lt, ← UInt8.toNat_inj, UInt8.toNat_ofNat_of_lt' hx,
    UInt8.toNat_ofNat_of_lt' hy]

theorem encodeChar_lt {c d : Char} (h : c < d) (s t : List UInt8) :
    String.utf8EncodeChar c ++ s < String.utf8EncodeChar d ++ t := by
  have hlt : c.val.toNat < d.val.toNat := h
  have hvalid : d.val.toNat < 1114112 := by
    have hd := d.valid
    simp only [UInt32.isValidChar, Nat.isValidChar] at hd
    omega
  simp only [String.utf8EncodeChar]
  generalize c.val.toNat = v at *
  generalize d.val.toNat = w at *
  split_ifs
  all_goals
    simp (disch := omega) only [List.cons_append, List.nil_append, cons_ofNat_lt]
    try omega
  -- both have four bytes: the first digit that differs decides
  rcases lt_digits hlt with hlt | ⟨_, _⟩
  · rcases lt_digits hlt with hlt | ⟨_, _⟩
    · rcases lt_digits hlt with hlt | ⟨_, _⟩ <;> omega
    · omega
  · omega

/-! ## Texts -/

theorem encode_lt_encode {a b : Text} (h : a < b) : encode a < encode b := by
  induction a generalizing b with
  | nil =>
    obtain ⟨c, b, rfl⟩ := List.exists_cons_of_ne_nil (l := b) (by rintro rfl; exact absurd h (List.lt_irrefl []))
    obtain ⟨x, bytes, hbytes⟩ := List.exists_cons_of_ne_nil (encode_ne_nil (List.cons_ne_nil c b))
    rw [hbytes]
    exact List.nil_lt_cons x bytes
  | cons c a ih =>
    obtain ⟨d, b, rfl⟩ := List.exists_cons_of_ne_nil (l := b) (by rintro rfl; exact absurd h (List.not_lt_nil _))
    rw [encode_cons, encode_cons]
    rcases List.cons_lt_cons_iff.1 h with hlt | ⟨rfl, hlt⟩
    · exact encodeChar_lt hlt _ _
    · exact List.append_left_lt (ih hlt)

theorem encode_lt_encode_iff {a b : Text} : encode a < encode b ↔ a < b := by
  refine ⟨fun h => Classical.byContradiction fun hn => ?_, encode_lt_encode⟩
  rcases List.le_iff_lt_or_eq.1 (List.not_lt.1 hn) with hlt | rfl
  · exact List.lt_asymm h (encode_lt_encode hlt)
  · exact List.lt_irrefl _ h

end ThriftModules.Text.Utf8
