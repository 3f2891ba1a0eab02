import Css.File.Text
import Mathlib

/-!
# Declared encodings

A file that starts with a whole declaration of its encoding is decoded as declared, without the
declaration, and a file that does not start like one is decoded in UTF-8, without a byte order mark,
`textWith_cases`. Where the declaration breaks off, or something other than a semicolon ends it, the
file is decoded as declared all the same, and what stands there is lost.
-/

namespace Css.File

/-- The byte that ends a declaration. -/
def semicolonByte : UInt8 := 0x3B

/-- The file starts with a whole declaration of its encoding by a label, and goes on with a text. -/
structure Declares (bytes label rest : List UInt8) : Prop where
  bytes_eq : bytes = declarationStart ++ (label ++ quoteByte :: semicolonByte :: rest)
  quoteByte_notMem : quoteByte ∉ label

/-- What stands behind the label where a declaration is not whole, and the text that the file goes
on with: the file ends, or another byte stands in the place of the semicolon. -/
inductive EndsOtherwise : List UInt8 → List UInt8 → Prop where
  | unclosed : EndsOtherwise [] []
  | closed : EndsOtherwise [quoteByte] []
  | byte {b : UInt8} (hb : b ≠ semicolonByte) (rest : List UInt8) :
      EndsOtherwise [quoteByte, b] rest

/-- A whole declaration holds a semicolon. -/
theorem Declares.semicolonByte_mem {bytes label rest : List UInt8} (h : Declares bytes label rest) :
    semicolonByte ∈ bytes := by
  rw [h.bytes_eq]
  simp

variable (decoder? : String → Option Decoder)

/-- A file that does not start like a declaration is in UTF-8. -/
theorem textWith_of_not_prefix {bytes : List UInt8} (h : ¬declarationStart <+: bytes) :
    textWith decoder? bytes = decode utf8 (withoutMark bytes) := by
  rw [textWith, if_neg (by rwa [List.isPrefixOf_iff_prefix])]

/-- Behind the label, the quotation mark and one byte more are left out. -/
theorem textWith_append {label : List UInt8} (hlabel : quoteByte ∉ label) {behind : List UInt8}
    (hbehind : ∀ b ∈ behind.head?, b = quoteByte) :
    textWith decoder? (declarationStart ++ (label ++ behind)) =
      decode (decoderFor decoder? label) (behind.drop 2) := by
  have hread : (label ++ behind).takeWhile (· ≠ quoteByte) = label := by
    rw [List.takeWhile_append_of_pos (by simpa using fun b hb => ne_of_mem_of_not_mem hb hlabel)]
    cases behind with
    | nil => simp
    | cons b behind => simp [hbehind b rfl]
  rw [textWith, if_pos (by simp), List.drop_left]
  dsimp only
  rw [hread, List.drop_append, List.drop_of_length_le (by omega), Nat.add_sub_cancel_left,
    List.nil_append]

/-- A file that starts like a declaration goes on with a label, behind which it ends or the
quotation mark stands. -/
theorem exists_label (body : List UInt8) :
    ∃ label behind, body = label ++ behind ∧ quoteByte ∉ label ∧
      ∀ b ∈ behind.head?, b = quoteByte := by
  refine ⟨body.takeWhile (· ≠ quoteByte), body.dropWhile (· ≠ quoteByte),
    List.takeWhile_append_dropWhile.symm, fun hmem => ?_, fun b hb => ?_⟩
  · simpa using List.mem_takeWhile_imp hmem
  · have hhead := List.head?_dropWhile_not (· ≠ quoteByte) body
    rw [Option.mem_def.mp hb] at hhead
    simpa using hhead

/-- The text of a file, whatever decoders are known. Behind a whole declaration it is decoded as
declared. A file that does not start like a declaration is decoded in UTF-8, without a byte order
mark. A file that starts like a declaration but has no whole one is decoded as declared, without
what stands in the place of its end. -/
theorem textWith_cases (bytes : List UInt8) :
    (∀ label rest, Declares bytes label rest →
      textWith decoder? bytes = decode (decoderFor decoder? label) rest) ∧
    (¬declarationStart <+: bytes → textWith decoder? bytes = decode utf8 (withoutMark bytes)) ∧
    (declarationStart <+: bytes → (∀ label rest, ¬Declares bytes label rest) →
      ∃ label lost rest, bytes = declarationStart ++ (label ++ (lost ++ rest)) ∧
        quoteByte ∉ label ∧ EndsOtherwise lost rest ∧
        textWith decoder? bytes = decode (decoderFor decoder? label) rest) := by
  refine ⟨?_, textWith_of_not_prefix decoder?, ?_⟩
  · rintro label rest ⟨rfl, hlabel⟩
    exact textWith_append decoder? hlabel (by simp)
  · rintro ⟨body, rfl⟩ hnone
    obtain ⟨label, behind, rfl, hlabel, hbehind⟩ := exists_label body
    have htext := textWith_append decoder? hlabel hbehind
    match behind, hbehind with
    | [], _ => exact ⟨label, [], [], rfl, hlabel, .unclosed, htext⟩
    | [b], hbehind =>
        obtain rfl : b = quoteByte := hbehind b rfl
        exact ⟨label, [quoteByte], [], rfl, hlabel, .closed, htext⟩
    | b :: d :: rest, hbehind =>
        obtain rfl : b = quoteByte := hbehind b rfl
        have hd : d ≠ semicolonByte := by
          rintro rfl
          exact hnone label rest ⟨rfl, hlabel⟩
        exact ⟨label, [quoteByte, d], rest, rfl, hlabel, .byte hd rest, htext⟩

/-- The bytes of a text in UTF-8. -/
def bytesOf (text : String) : List UInt8 := text.toUTF8.toList

/-- A declaration of ISO 8859-1 in mixed case, a byte order mark, and a declaration that the end of
the file cuts off. -/
theorem textWith_cases_latin :
    (Declares (bytesOf "@charset \" Latin-1\";" ++ [0xE9]) (bytesOf " Latin-1") [0xE9] ∧
      textWith Encoding.decoder? (bytesOf "@charset \" Latin-1\";" ++ [0xE9]) = .ok "é") ∧
    (¬declarationStart <+: byteOrderMark ++ bytesOf "é" ∧
      textWith Encoding.decoder? (byteOrderMark ++ bytesOf "é") = .ok "é") ∧
    ∃ label lost rest,
      bytesOf "@charset \"a" = declarationStart ++ (label ++ (lost ++ rest)) ∧
        quoteByte ∉ label ∧ EndsOtherwise lost rest ∧
        textWith Encoding.decoder? (bytesOf "@charset \"a") =
          decode (decoderFor Encoding.decoder? label) rest := by
  have hdeclares :
      Declares (bytesOf "@charset \" Latin-1\";" ++ [0xE9]) (bytesOf " Latin-1") [0xE9] :=
    ⟨by decide +kernel, by decide +kernel⟩
  have hstart : ¬declarationStart <+: byteOrderMark ++ bytesOf "é" := by decide +kernel
  have hnone (label rest : List UInt8) : ¬Declares (bytesOf "@charset \"a") label rest :=
    fun h => absurd h.semicolonByte_mem (by decide +kernel)
  refine ⟨⟨hdeclares, ?_⟩, ⟨hstart, ?_⟩, ?_⟩
  · rw [(textWith_cases _ _).1 _ _ hdeclares]
    decide +kernel
  · rw [(textWith_cases _ _).2.1 hstart]
    decide +kernel
  · exact (textWith_cases _ _).2.2 (by decide +kernel) hnone

/-- **A declaration that is not whole counts as one.** This file has no whole declaration, as
nothing but a letter stands behind the label. Its text lacks what looks like a declaration, and the
letter, which are part of the file in UTF-8. -/
theorem not_text_of_not_declares :
    (∀ label rest, ¬Declares (bytesOf "@charset \"utf-8\"a\x7b\x7d") label rest) ∧
      text (bytesOf "@charset \"utf-8\"a\x7b\x7d") = .ok "\x7b\x7d" ∧
      decode utf8 (withoutMark (bytesOf "@charset \"utf-8\"a\x7b\x7d")) =
        .ok "@charset \"utf-8\"a\x7b\x7d" :=
  ⟨fun _ _ h => absurd h.semicolonByte_mem (by decide +kernel), by decide +kernel,
    by decide +kernel⟩

end Css.File
