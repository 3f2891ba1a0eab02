/-!
# Character encodings

Bytes are decoded strictly: a sequence that an encoding does not define makes the whole text
unreadable.
-/

namespace Css

/-- The text that bytes stand for in an encoding, and none if it does not define them. -/
abbrev Decoder := List UInt8 → Option String

/-- The encodings that a stylesheet may declare. -/
inductive Encoding where
  | utf8
  | utf16le
  | ascii
  | latin1
  | latin9
  | windows1252
  deriving DecidableEq, Repr

namespace Encoding

/-- The encoding that a lower-case label names. -/
def ofLabel? : String → Option Encoding
  | "utf-8" | "utf8" => some utf8
  | "utf-16le" => some utf16le
  | "ascii" | "us-ascii" => some ascii
  | "latin-1" | "iso-8859-1" => some latin1
  | "iso-8859-15" => some latin9
  | "windows-1252" | "cp1252" => some windows1252
  | _ => none

/-- The characters of Windows-1252 from `0x80` to `0x9F`; the null character stands for none. -/
def windowsChars : List Char :=
  ['€', '\x00', '‚', 'ƒ', '„', '…', '†', '‡', 'ˆ', '‰', 'Š', '‹', 'Œ', '\x00', 'Ž', '\x00',
   '\x00', '‘', '’', '“', '”', '•', '–', '—', '˜', '™', 'š', '›', 'œ', '\x00', 'ž', 'Ÿ']

/-- The character of a byte in Windows-1252. -/
def windowsChar? (byte : UInt8) : Option Char :=
  if 0x80 ≤ byte ∧ byte < 0xA0 then
    (windowsChars[(byte - 0x80).toNat]?).filter fun c => c ≠ '\x00'
  else some (Char.ofNat byte.toNat)

/-- The character of a byte in ISO 8859-15, which differs from ISO 8859-1 in eight places. -/
def latin9Char (byte : UInt8) : Char :=
  match byte.toNat with
  | 0xA4 => '€'
  | 0xA6 => 'Š'
  | 0xA8 => 'š'
  | 0xB4 => 'Ž'
  | 0xB8 => 'ž'
  | 0xBC => 'Œ'
  | 0xBD => 'œ'
  | 0xBE => 'Ÿ'
  | n => Char.ofNat n

/-- The characters of UTF-16 in bytes of which the lower comes first. Two surrogates make up one
character. -/
def utf16Chars? : List UInt8 → Option (List Char)
  | [] => some []
  | low :: high :: rest =>
    let unit := high.toNat * 0x100 + low.toNat
    if unit < 0xD800 ∨ 0xE000 ≤ unit then (utf16Chars? rest).map (Char.ofNat unit :: ·)
    else
      match rest with
      | low' :: high' :: rest =>
        let second := high'.toNat * 0x100 + low'.toNat
        if unit < 0xDC00 ∧ 0xDC00 ≤ second ∧ second < 0xE000 then
          let code := 0x10000 + (unit - 0xD800) * 0x400 + (second - 0xDC00)
          (utf16Chars? rest).map (Char.ofNat code :: ·)
        else none
      | _ => none
  | _ => none

/-- The text that bytes encode. -/
def decode? (bytes : List UInt8) : Encoding → Option String
  | utf8 => String.fromUTF8? ⟨bytes.toArray⟩
  | utf16le => (utf16Chars? bytes).map String.ofList
  | ascii =>
    if bytes.all (· < 0x80) then some (String.ofList (bytes.map fun b => Char.ofNat b.toNat))
    else none
  | latin1 => some (String.ofList (bytes.map fun b => Char.ofNat b.toNat))
  | latin9 => some (String.ofList (bytes.map latin9Char))
  | windows1252 => (bytes.mapM windowsChar?).map String.ofList

/-- The decoder of the encoding that a lower-case label names. -/
def decoder? (label : String) : Option Decoder :=
  (ofLabel? label).map fun encoding bytes => encoding.decode? bytes

end Encoding

end Css
