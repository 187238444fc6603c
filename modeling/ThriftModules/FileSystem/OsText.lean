import ThriftModules.Text.Utf8

/-!
# Texts of the operating system

Names, paths and the arguments of a program are bytes, which need not encode a text.

* `OsText` : bytes, each written as the character of its code;
* `OsText.ofText` : the bytes of a text;
* `OsText.toText?` : the text that the bytes encode, if they encode one;
* `OsText.display` : a text to show them by, whatever they are.
-/

namespace ThriftModules

set_option autoImplicit false

/-- Bytes, each written as the character of its code. They are ordered by their bytes, and ASCII stands for itself. -/
abbrev OsText := Text

namespace OsText

def ofBytes (bytes : List UInt8) : OsText := bytes.map Char.ofUInt8

def bytes (t : OsText) : List UInt8 := t.map Char.toUInt8

def size (t : OsText) : Nat := t.length

def ofText (t : Text) : OsText := ofBytes (Text.Utf8.encode t)

/-- The text that the bytes encode, if they encode one. -/
def toText? (t : OsText) : Option Text := Text.Utf8.decode? t.bytes

/-- The text that the bytes encode, with the replacement character where they encode none. -/
def display (t : OsText) : Text := Text.Utf8.decodeLossy t.bytes

end OsText
end ThriftModules
