import Css.Vocabulary

/-!
# Vendor prefixes

A property or rule that is not standard yet has the prefix of a vendor in front of its name. A
prefix is only recognized if a name follows it.
-/

namespace Css

/-- The vendors whose prefixes are recognized. -/
inductive VendorPrefix where
  | webkit | moz | ms | o | epub | servo | khtml | apple | wap | xv | atsc
  | ah | hp | ro | rim | tc | prince | konq | icab | xhtml2 | fso
  deriving DecidableEq, Repr

instance : Vocabulary VendorPrefix where
  members :=
    [.webkit, .moz, .ms, .o, .epub, .servo, .khtml, .apple, .wap, .xv, .atsc,
     .ah, .hp, .ro, .rim, .tc, .prince, .konq, .icab, .xhtml2, .fso]
  word
    | .webkit => "webkit" | .moz => "moz" | .ms => "ms" | .o => "o" | .epub => "epub"
    | .servo => "servo" | .khtml => "khtml" | .apple => "apple" | .wap => "wap" | .xv => "xv"
    | .atsc => "atsc" | .ah => "ah" | .hp => "hp" | .ro => "ro" | .rim => "rim" | .tc => "tc"
    | .prince => "prince" | .konq => "konq" | .icab => "icab" | .xhtml2 => "xhtml2"
    | .fso => "fso"

namespace VendorPrefix

/-- The name of the vendor. -/
def name (p : VendorPrefix) : String := Vocabulary.word p

/-- The canonical text of a vendor prefix. -/
def css (p : VendorPrefix) : String := "-" ++ p.name ++ "-"

/-- The vendor prefix of a lower-case name, and the rest of the name. A name without a recognized
prefix is all rest. -/
def split (name : String) : Option VendorPrefix × String :=
  match name.toList with
  | '-' :: chars =>
    let vendor := chars.takeWhile (· ≠ '-')
    let base := chars.drop (vendor.length + 1)
    match Vocabulary.find? VendorPrefix (String.ofList vendor) with
    | some p => if base.isEmpty then (none, name) else (some p, String.ofList base)
    | none => (none, name)
  | _ => (none, name)

end VendorPrefix

end Css
