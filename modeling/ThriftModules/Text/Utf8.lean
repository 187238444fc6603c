import ThriftModules.Text.Basic

/-!
# UTF-8

* `encode` : the bytes of a text;
* `decode` : the characters of a byte sequence, with `none` for each maximal stretch that no character starts with;
* `decode?` : the text that bytes encode, if they encode one;
* `decodeLossy` : the text with the replacement character for each such stretch.
-/

namespace ThriftModules.Text.Utf8

set_option autoImplicit false

def encode (t : Text) : List UInt8 := t.flatMap String.utf8EncodeChar

/-- A character of which the first bytes are read. -/
structure Partial where
  /-- The bits read so far. -/
  value : Nat
  /-- The number of bytes that are missing. -/
  missing : Nat
  /-- The least next byte. -/
  least : Nat
  /-- The greatest next byte. -/
  greatest : Nat
deriving DecidableEq, Repr

/-- What a byte at the start of a character opens: an ASCII character, a longer one, or nothing. -/
inductive Lead where
  | ascii (c : Char)
  | opens (p : Partial)
  | invalid
deriving DecidableEq, Repr

/-- What the byte of value `b` opens. Overlong forms, surrogates and values beyond the last code point are invalid. -/
def lead (b : Nat) : Lead :=
  if b < 0x80 then .ascii (Char.ofNat b)
  else if b < 0xC2 then .invalid
  else if b < 0xE0 then .opens ⟨b - 0xC0, 1, 0x80, 0xBF⟩
  else if b < 0xF0 then .opens ⟨b - 0xE0, 2, if b = 0xE0 then 0xA0 else 0x80, if b = 0xED then 0x9F else 0xBF⟩
  else if b < 0xF5 then .opens ⟨b - 0xF0, 3, if b = 0xF0 then 0x90 else 0x80, if b = 0xF4 then 0x8F else 0xBF⟩
  else .invalid

/-- The characters that one byte completes and the character that it leaves open, where no character was open. -/
def openByte (b : Nat) : List (Option Char) × Option Partial :=
  match lead b with
  | .ascii c => ([some c], none)
  | .opens p => ([], some p)
  | .invalid => ([none], none)

/-- The characters that one byte completes and the character that it leaves open. -/
def stepByte : Option Partial → Nat → List (Option Char) × Option Partial
  | none, b => openByte b
  | some p, b =>
    if p.least ≤ b ∧ b ≤ p.greatest then
      let value := p.value * 64 + (b - 0x80)
      if p.missing ≤ 1 then ([some (Char.ofNat value)], none) else ([], some ⟨value, p.missing - 1, 0x80, 0xBF⟩)
    else
      let out := openByte b
      (none :: out.1, out.2)

def decodeFrom : Option Partial → List UInt8 → List (Option Char)
  | none, [] => []
  | some _, [] => [none]
  | p, b :: rest =>
    let out := stepByte p b.toNat
    out.1 ++ decodeFrom out.2 rest

/-- The characters of a byte sequence, with `none` for each maximal stretch that no character starts with. -/
def decode (bytes : List UInt8) : List (Option Char) := decodeFrom none bytes

def decode? (bytes : List UInt8) : Option Text :=
  let chars := decode bytes
  if chars.all Option.isSome then some (chars.filterMap id) else none

def decodeLossy (bytes : List UInt8) : Text := (decode bytes).map (·.getD (Char.ofNat 0xFFFD))

end ThriftModules.Text.Utf8
