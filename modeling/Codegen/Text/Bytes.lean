import Codegen.Text.Basic

/-!
# Bytes of string constants

The body of a string constant writes every byte of the UTF-8 form of the text, followed by one
zero byte.  Letters, digits and a fixed set of signs stand for themselves, any other byte is a
backslash and two hexadecimal digits.
-/

namespace Codegen.Text

/-- The UTF-8 bytes of a text. -/
def bytes (text : String) : List UInt8 :=
  text.toUTF8.data.toList

/-- The number of UTF-8 bytes of a text. -/
def byteLength (text : String) : Nat :=
  text.utf8ByteSize

/-- The signs that stand for themselves in a string constant. -/
def plainSigns : List Char :=
  "_: ,[]()\x7b\x7d<>.;-+*/~?!=&|%^@".toList

/-- Whether a byte stands for itself in a string constant. -/
def isPlain (byte : UInt8) : Bool :=
  (Char.ofNat byte.toNat).isAlphanum || plainSigns.contains (Char.ofNat byte.toNat)

/-- The hexadecimal digit of a number below sixteen. -/
def hexDigit (n : Nat) : Char :=
  Nat.digitChar n

/-- One byte of a string constant. -/
def escapeByte (byte : UInt8) : List Char :=
  if isPlain byte then
    [Char.ofNat byte.toNat]
  else
    ['\\', hexDigit (byte.toNat / 16), hexDigit (byte.toNat % 16)]

/-- The body of a string constant: the escaped bytes of the text and the final zero byte. -/
def constantBody (text : String) : String :=
  String.ofList ((bytes text).flatMap escapeByte ++ ['\\', '0', '0'])

end Codegen.Text
