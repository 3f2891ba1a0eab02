import Css.File.Encoding
import Css.Text.Basic
import Css.Text.LowerCase

/-!
# Texts of files

A file is in UTF-8 unless it starts with a declaration of its encoding. The declaration is no part
of the text, and neither is a byte order mark.
-/

namespace Css.File

/-- Bytes that the encoding of a file does not define. -/
inductive DecodeError where
  | malformed (bytes : List UInt8)
  deriving DecidableEq, Repr

/-- The bytes that start the declaration of an encoding. -/
def declarationStart : List UInt8 := "@charset \"".toUTF8.toList

/-- The byte order mark of UTF-8. -/
def byteOrderMark : List UInt8 := [0xEF, 0xBB, 0xBF]

/-- The byte that ends the label of an encoding. -/
def quoteByte : UInt8 := 0x22

/-- The label that bytes spell, in lower case. Bytes above ASCII spell no character. -/
def labelText (bytes : List UInt8) : String :=
  let chars := bytes.map fun b => if b < 0x80 then Char.ofNat b.toNat else '\uFFFD'
  Text.lowerCase (String.ofList (Text.trim chars))

/-- Decodes bytes, or refuses them. -/
def decode (decoder : Decoder) (bytes : List UInt8) : Except DecodeError String :=
  match decoder bytes with
  | some text => .ok text
  | none => .error (.malformed bytes)

/-- The decoder of UTF-8. -/
def utf8 : Decoder := fun bytes => Encoding.utf8.decode? bytes

/-- The decoder for a label, which is that of UTF-8 if none is known by the label. -/
def decoderFor (decoder? : String → Option Decoder) (label : List UInt8) : Decoder :=
  (decoder? (labelText label)).getD utf8

/-- The bytes behind a byte order mark, if there is one. -/
def withoutMark (bytes : List UInt8) : List UInt8 :=
  if byteOrderMark.isPrefixOf bytes then bytes.drop byteOrderMark.length else bytes

/-- The text of a file, where the given decoders are known by their labels. The declaration of an
encoding ends one byte after the quotation mark that closes the label. -/
def textWith (decoder? : String → Option Decoder) (bytes : List UInt8) :
    Except DecodeError String :=
  if declarationStart.isPrefixOf bytes then
    let body := bytes.drop declarationStart.length
    let label := body.takeWhile (· ≠ quoteByte)
    decode (decoderFor decoder? label) (body.drop (label.length + 2))
  else decode utf8 (withoutMark bytes)

/-- The text of a file. -/
def text (bytes : List UInt8) : Except DecodeError String := textWith Encoding.decoder? bytes

end Css.File
