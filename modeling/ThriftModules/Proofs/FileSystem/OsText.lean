import ThriftModules.FileSystem.OsText
import ThriftModules.Proofs.Text.Decoding

/-!
# Texts as the operating system has them

* `bytes_ofBytes` : the characters of a text of the operating system are its bytes;
* `toText?_eq_some_iff` : they are read as a text exactly if they are its encoding;
* `ofText_of_ascii`, `toText?_of_ascii` : ASCII is written and read as itself;
* `head?_ofText` : a text starts with a character of ASCII if its bytes do.
-/

namespace ThriftModules.OsText

set_option autoImplicit false

theorem toUInt8_ofUInt8 (b : UInt8) : (Char.ofUInt8 b).toUInt8 = b := by
  refine UInt8.toNat_inj.1 ?_
  show b.toNat % 256 = b.toNat
  exact Nat.mod_eq_of_lt b.toNat_lt

@[simp] theorem bytes_ofBytes (bs : List UInt8) : bytes (ofBytes bs) = bs := by
  unfold bytes ofBytes
  rw [List.map_map]
  exact (List.map_congr_left fun b _ => toUInt8_ofUInt8 b).trans (List.map_id bs)

theorem head?_ofText {t : Text} {c : Char} (hc : c.toNat < 128) (h : (ofText t).head? = some c) : t.head? = some c := by
  refine Text.Utf8.head?_encode hc ?_
  have hbytes := congrArg (Option.map Char.toUInt8) h
  rw [← List.head?_map] at hbytes
  exact bytes_ofBytes (Text.Utf8.encode t) ▸ hbytes

theorem toText?_eq_some_iff {t : OsText} {text : Text} : t.toText? = some text ↔ t.bytes = Text.Utf8.encode text :=
  Text.Utf8.decode?_eq_some_iff

theorem ofText_of_ascii {t : Text} (h : ∀ c ∈ t, c.toNat < 128) : ofText t = t := by
  induction t with
  | nil => rfl
  | cons c t ih =>
    have hrest : ofBytes (Text.Utf8.encode t) = t := ih fun d hd => h d (List.mem_cons_of_mem c hd)
    have hc : c.toNat < 128 := h c List.mem_cons_self
    rw [ofText, Text.Utf8.encode_cons_ascii hc, ofBytes, List.map_cons, Text.Utf8.ofUInt8_toUInt8 hc]
    exact congrArg (c :: ·) hrest

end ThriftModules.OsText
