import Css.Media.Query
import Css.Proofs.Media.Canonical
import Css.Proofs.Parser.Written
import Css.Proofs.Text.LowerCase

/-!
# Written media lists

The canonical text of a media list, and the components that it is read as. Numbers are read back as
the numbers that they are written as, which have the same exact values; so `asWritten`, the list
that is read back, makes the same choices between the forms of a range and has the same text.
-/

namespace Css

open Number
open Component (written space Spells ReadFrom)

namespace Number.Numeric

variable {a b : Numeric}

/-- A writable value is finite. -/
theorem IsWritable.exists_toRat? (h : a.IsWritable) : ∃ x, a.toRat? = some x := by
  cases a with
  | integer n => exact ⟨n, rfl⟩
  | real x => exact Option.isSome_iff_exists.mp h

/-- Values are compared by their exact values. -/
theorem le_congr {a' b' : Numeric} {x y : ℚ} (ha : a.toRat? = some x) (hb : b.toRat? = some y)
    (ha' : a'.toRat? = some x) (hb' : b'.toRat? = some y) : a'.le b' = a.le b := by
  rw [Bool.eq_iff_iff, le_iff_of_toRat? ha hb, le_iff_of_toRat? ha' hb']

/-- Values are equal by their exact values. -/
theorem beq_congr {a' b' : Numeric} {x y : ℚ} (ha : a.toRat? = some x) (hb : b.toRat? = some y)
    (ha' : a'.toRat? = some x) (hb' : b'.toRat? = some y) : (a' == b') = (a == b) := by
  show (_ && _) = (_ && _)
  rw [le_congr ha hb ha' hb', le_congr hb ha hb' ha']

/-- A finite value equals itself. -/
theorem beq_self_of_isWritable (h : a.IsWritable) : (a == a) = true := by
  obtain ⟨x, hx⟩ := h.exists_toRat?
  have hle : a.le a = true := (le_iff_of_toRat? hx hx).mpr le_rfl
  show (a.le a && a.le a) = true
  rw [hle]
  rfl

end Number.Numeric

namespace RangeValue

/-- The numbers of the value can be written and read back. -/
def IsWritable : RangeValue → Prop
  | length value _ | resolution value _ => value.IsWritable
  | ratio numerator denominator => numerator.IsWritable ∧ denominator.IsWritable
  | count _ => True

instance (v : RangeValue) : Decidable v.IsWritable :=
  match v with
  | length value _ | resolution value _ => inferInstanceAs (Decidable value.IsWritable)
  | ratio numerator denominator =>
    inferInstanceAs (Decidable (numerator.IsWritable ∧ denominator.IsWritable))
  | count _ => inferInstanceAs (Decidable True)

/-- The numbers of the value are ones that a token can have. -/
def IsRead : RangeValue → Prop
  | length value _ | resolution value _ => value.IsRead
  | ratio numerator denominator => numerator.IsRead ∧ denominator.IsRead
  | count n => n.natAbs < 10 ^ digitLimit

/-- The canonical text of a value that can be written. -/
def text : RangeValue → String
  | length value unit => (Numeral.ofNumeric value).text ++ Vocabulary.word unit
  | ratio numerator denominator =>
    (Numeral.ofNumeric numerator).text ++ "/" ++ (Numeral.ofNumeric denominator).text
  | resolution value unit => (Numeral.ofNumeric value).text ++ Vocabulary.word unit
  | count n => toString n

/-- The components of the value. -/
def components : RangeValue → List Component
  | length value unit => [written (.dimension (.ofNumeric value) (Vocabulary.word unit))]
  | ratio numerator denominator =>
    [written (.number (.ofNumeric numerator)), written (.delim '/'),
     written (.number (.ofNumeric denominator))]
  | resolution value unit => [written (.dimension (.ofNumeric value) (Vocabulary.word unit))]
  | count n => [written (.number (.ofInt n))]

/-- The value that is read back. -/
def asWritten : RangeValue → RangeValue
  | length value unit => .length (Numeral.ofNumeric value).value unit
  | ratio numerator denominator =>
    .ratio (Numeral.ofNumeric numerator).value (Numeral.ofNumeric denominator).value
  | resolution value unit => .resolution (Numeral.ofNumeric value).value unit
  | count n => .count n

variable {v w : RangeValue}

/-- A writable value has a canonical text. -/
theorem css_eq (h : v.IsWritable) : v.css = .ok v.text := by
  cases v with
  | length value unit | resolution value unit =>
      rw [css, Numeral.css_eq h]
      rfl
  | ratio numerator denominator =>
      rw [css, Numeral.css_eq h.1, Numeral.css_eq h.2]
      rfl
  | count n => rfl

/-- The value that is read back has the same canonical text. -/
theorem css_asWritten (hread : v.IsRead) (h : v.IsWritable) : v.asWritten.css = .ok v.text := by
  cases v with
  | length value unit | resolution value unit =>
      rw [asWritten, css, Numeral.css_value_ofNumeric hread h]
      rfl
  | ratio numerator denominator =>
      rw [asWritten, css, Numeral.css_value_ofNumeric hread.1 h.1,
        Numeral.css_value_ofNumeric hread.2 h.2]
      rfl
  | count n => rfl

/-- The value that is read back is zero if the value is. -/
theorem isZero_asWritten (h : v.IsWritable) : v.asWritten.isZero = v.isZero := by
  have hzero {a : Numeric} (ha : a.IsWritable) :
      (Numeral.ofNumeric a).value.isZero = a.isZero := by
    obtain ⟨x, hx⟩ := ha.exists_toRat?
    exact Numeric.beq_congr hx rfl ((Numeral.toRat?_ofNumeric a).trans hx) rfl
  cases v with
  | length value unit | resolution value unit => exact hzero h
  | ratio numerator denominator => exact hzero h.1
  | count n => rfl

/-- Values that are read back are equal if the values are. -/
theorem beq_asWritten (hv : v.IsWritable) (hw : w.IsWritable) :
    (v.asWritten == w.asWritten) = (v == w) := by
  have hbeq {a b : Numeric} (ha : a.IsWritable) (hb : b.IsWritable) :
      ((Numeral.ofNumeric a).value == (Numeral.ofNumeric b).value) = (a == b) := by
    obtain ⟨x, hx⟩ := ha.exists_toRat?
    obtain ⟨y, hy⟩ := hb.exists_toRat?
    exact Numeric.beq_congr hx hy ((Numeral.toRat?_ofNumeric a).trans hx)
      ((Numeral.toRat?_ofNumeric b).trans hy)
  have hone {a b : Numeric} {units : Bool} (ha : a.IsWritable) (hb : b.IsWritable) :
      ((Numeral.ofNumeric a).value == (Numeral.ofNumeric b).value && units) =
        (a == b && units) := by rw [hbeq ha hb]
  cases v with
  | length value unit =>
      cases w with
      | length other unit' => exact hone hv hw
      | _ => rfl
  | ratio numerator denominator =>
      cases w with
      | ratio numerator' denominator' =>
          exact (hone hv.1 hw.1).trans (congrArg (_ && ·) (hbeq hv.2 hw.2))
      | _ => rfl
  | resolution value unit =>
      cases w with
      | resolution other unit' => exact hone hv hw
      | _ => rfl
  | count n => cases w <;> rfl

/-- A writable value equals itself. -/
theorem beq_self (h : v.IsWritable) : (v == v) = true := by
  cases v with
  | length value unit | resolution value unit =>
      show (value == value && decide (unit = unit)) = true
      rw [Numeric.beq_self_of_isWritable h, decide_eq_true rfl]
      rfl
  | ratio numerator denominator =>
      show (numerator == numerator && denominator == denominator) = true
      rw [Numeric.beq_self_of_isWritable h.1, Numeric.beq_self_of_isWritable h.2]
      rfl
  | count n => exact decide_eq_true rfl

/-- A written value starts with no other character than a sign, a point or a digit. -/
theorem head?_text_ne (hread : v.IsRead) (h : v.IsWritable) {d : Char}
    (hsign : ¬(d = '+' ∨ d = '-')) (hpoint : d ≠ '.') (hd : isDigit d = false)
    (rest : List Char) : (v.text.toList ++ rest).head? ≠ some d := by
  cases v with
  | length value unit | resolution value unit =>
      rw [text, String.toList_append, List.append_assoc]
      exact Component.head?_ne_of_isCanonical (Numeral.isCanonical_ofNumeric hread h)
        hsign hpoint hd _
  | ratio numerator denominator =>
      rw [text, String.toList_append, String.toList_append, List.append_assoc, List.append_assoc]
      exact Component.head?_ne_of_isCanonical (Numeral.isCanonical_ofNumeric hread.1 h.1)
        hsign hpoint
        hd _
  | count n =>
      exact Component.head?_ne_of_isCanonical (Numeral.isCanonical_ofInt hread) hsign hpoint hd rest

/-- A value is spelled by its canonical text. -/
theorem spells (hread : v.IsRead) (h : v.IsWritable) : Spells v.components v.text := by
  cases v with
  | length value unit =>
      refine Component.spells_dimension (Numeral.isCanonical_ofNumeric hread h) ?_
      cases unit <;> exact ⟨by decide, by decide, fun _ => ⟨rfl, rfl, rfl⟩⟩
  | resolution value unit =>
      refine Component.spells_dimension (Numeral.isCanonical_ofNumeric hread h) ?_
      cases unit <;> exact ⟨by decide, by decide, fun _ => ⟨rfl, rfl, rfl⟩⟩
  | ratio numerator denominator =>
      have hnumerator := Component.spells_number (Numeral.isCanonical_ofNumeric hread.1 h.1)
      have hcanonical := Numeral.isCanonical_ofNumeric hread.2 h.2
      have hslash := (Component.spells_number hcanonical).toReadFrom.slash
        (Component.head?_ne_of_isCanonical hcanonical (by decide) (by decide) rfl)
      rw [text, String.append_assoc]
      exact hnumerator.append hslash (Component.delimited_append ⟨_, _, rfl, by decide⟩)
  | count n => exact Component.spells_integer hread

end RangeValue

/-- A bound with the value that is read back. -/
def Bound.asWritten (b : Bound) : Bound := { b with value := b.value.asWritten }

/-- The forms in which a range is written: the bare name of its feature, one value, a value on
either side of the name, and one bound. -/
inductive RangeForm where
  | bare
  | equal (value : RangeValue)
  | between (lower upper : Bound)
  | atLeast (lower : Bound)
  | atMost (upper : Bound)

/-- The form in which a range is written. -/
def Range.form (r : Range) : RangeForm :=
  if r.isBoolean then .bare
  else
    match r.lower, r.upper with
    | some lower, some upper =>
      if lower.inclusive && upper.inclusive && lower.value == upper.value then .equal lower.value
      else .between lower upper
    | some lower, none => .atLeast lower
    | none, some upper => .atMost upper
    | none, none => .bare

/-- The components of the sign between two sides of which the left one is smaller. -/
def Range.lessComponents (inclusive : Bool) : List Component :=
  written (.delim '<') :: if inclusive then [written (.delim '=')] else []

namespace RangeForm

/-- The values of a form. -/
def values : RangeForm → List RangeValue
  | bare => []
  | equal value => [value]
  | between lower upper => [lower.value, upper.value]
  | atLeast bound | atMost bound => [bound.value]

/-- The text of a feature with a range in this form. -/
def text (name : String) : RangeForm → String
  | bare => name
  | equal value => name ++ ":" ++ value.text
  | between lower upper =>
    lower.value.text ++ Range.lessSign lower.inclusive ++ name ++ Range.lessSign upper.inclusive ++
      upper.value.text
  | atLeast lower =>
    (if lower.inclusive then "min-" ++ name ++ ":" else name ++ ">") ++ lower.value.text
  | atMost upper =>
    (if upper.inclusive then "max-" ++ name ++ ":" else name ++ "<") ++ upper.value.text

/-- The components of a feature with a range in this form. -/
def components (name : String) : RangeForm → List Component
  | bare => [written (.ident name)]
  | equal value => written (.ident name) :: written .colon :: value.components
  | between lower upper =>
    lower.value.components ++ (Range.lessComponents lower.inclusive ++
      written (.ident name) :: (Range.lessComponents upper.inclusive ++ upper.value.components))
  | atLeast lower =>
    if lower.inclusive then
      written (.ident ("min-" ++ name)) :: written .colon :: lower.value.components
    else written (.ident name) :: written (.delim '>') :: lower.value.components
  | atMost upper =>
    if upper.inclusive then
      written (.ident ("max-" ++ name)) :: written .colon :: upper.value.components
    else written (.ident name) :: written (.delim '<') :: upper.value.components

/-- The range that is read back from the form. -/
def asWritten (zero : RangeValue) : RangeForm → Range
  | bare => .above zero
  | equal value => .exactly value.asWritten
  | between lower upper => ⟨some lower.asWritten, some upper.asWritten⟩
  | atLeast lower => ⟨some lower.asWritten, none⟩
  | atMost upper => ⟨none, some upper.asWritten⟩

end RangeForm

namespace Range

/-- The values of a range. -/
def values (r : Range) : List RangeValue := (r.lower.toList ++ r.upper.toList).map Bound.value

/-- A range that is bounded at one end at least. -/
def IsBounded (r : Range) : Prop := r.lower.isSome ∨ r.upper.isSome

variable {r : Range}

/-- The values of the form of a range are among those of the range. -/
theorem mem_values_of_form {v : RangeValue} (h : v ∈ r.form.values) : v ∈ r.values := by
  obtain ⟨lower, upper⟩ := r
  unfold form at h
  split at h
  · cases h
  · cases lower with
    | none =>
        cases upper with
        | none => cases h
        | some upper => simpa [RangeForm.values, values] using h
    | some lower =>
        cases upper with
        | none => simpa [RangeForm.values, values] using h
        | some upper =>
            dsimp only at h
            split at h
            · have hv : v = lower.value := by simpa [RangeForm.values] using h
              simp [values, hv]
            · simpa [RangeForm.values, values] using h

/-- A bounded range has the text of its form. -/
theorem css_eq (name : String) (hbounded : r.IsBounded) (h : ∀ v ∈ r.values, v.IsWritable) :
    r.css name = .ok (r.form.text name) := by
  obtain ⟨lower, upper⟩ := r
  unfold css form
  split
  · rfl
  · cases lower with
    | none =>
        cases upper with
        | none => simp [IsBounded] at hbounded
        | some upper =>
            have hupper := h upper.value (by simp [values])
            simp only [RangeValue.css_eq hupper, RangeForm.text]
            rfl
    | some lower =>
        have hlower := h lower.value (by simp [values])
        cases upper with
        | none =>
            simp only [RangeValue.css_eq hlower, RangeForm.text]
            rfl
        | some upper =>
            have hupper := h upper.value (by simp [values])
            simp only [RangeValue.css_eq hlower, RangeValue.css_eq hupper]
            split
            · rfl
            · rfl

/-- The range that is read back has the same text. -/
theorem css_asWritten (name : String) {zero : RangeValue} (hzero : zero.isZero = true)
    (hbounded : r.IsBounded) (hread : ∀ v ∈ r.values, v.IsRead) (h : ∀ v ∈ r.values, v.IsWritable) :
    (r.form.asWritten zero).css name = .ok (r.form.text name) := by
  obtain ⟨lower, upper⟩ := r
  have hlower : ∀ b ∈ lower, b.value.asWritten.css = .ok b.value.text ∧ b.value.IsWritable := by
    rintro b rfl
    exact ⟨RangeValue.css_asWritten (hread _ (by simp [values])) (h _ (by simp [values])),
      h _ (by simp [values])⟩
  have hupper : ∀ b ∈ upper, b.value.asWritten.css = .ok b.value.text ∧ b.value.IsWritable := by
    rintro b rfl
    exact ⟨RangeValue.css_asWritten (hread _ (by simp [values])) (h _ (by simp [values])),
      h _ (by simp [values])⟩
  unfold form
  split
  · simp [RangeForm.asWritten, above, css, isBoolean, hzero, RangeForm.text]
  · rename_i hboolean
    cases lower with
    | none =>
        cases upper with
        | none => simp [IsBounded] at hbounded
        | some upper =>
            simp only [RangeForm.asWritten, css, isBoolean, Bound.asWritten, (hupper upper rfl).1,
              RangeForm.text]
            rfl
    | some lower =>
        cases upper with
        | none =>
            have hboolean : (!lower.inclusive && lower.value.asWritten.isZero) = false := by
              rw [RangeValue.isZero_asWritten (hlower lower rfl).2]
              simpa [isBoolean] using hboolean
            simp only [RangeForm.asWritten, css, isBoolean, Bound.asWritten, (hlower lower rfl).1,
              hboolean, RangeForm.text]
            rfl
        | some upper =>
            dsimp only
            split
            · have hself : (lower.value.asWritten == lower.value.asWritten) = true := by
                rw [RangeValue.beq_asWritten (hlower lower rfl).2 (hlower lower rfl).2]
                exact RangeValue.beq_self (hlower lower rfl).2
              simp only [RangeForm.asWritten, exactly, css, isBoolean, (hlower lower rfl).1,
                hself, RangeForm.text]
              rfl
            · rename_i hsingle
              have hsingle : ¬(lower.inclusive && upper.inclusive &&
                  lower.value.asWritten == upper.value.asWritten) = true := by
                rwa [RangeValue.beq_asWritten (hlower lower rfl).2 (hupper upper rfl).2]
              simp only [RangeForm.asWritten, css, isBoolean, Bound.asWritten, (hlower lower rfl).1,
                (hupper upper rfl).1, RangeForm.text]
              rw [if_neg hsingle]
              rfl

end Range

/-- A word that is written as it is, in lower case, and does not start with a hyphen. -/
structure IsFeatureName (name : String) : Prop where
  isName : IsName name
  identifierText : identifierText name = name
  head : name.toList.head? ≠ some '-'

/-- The names of ranged features are words, also behind the beginnings that make them bounds. -/
theorem RangedFeature.isFeatureName (feature : RangedFeature) :
    IsFeatureName (Vocabulary.word feature) ∧ IsFeatureName ("min-" ++ Vocabulary.word feature) ∧
      IsFeatureName ("max-" ++ Vocabulary.word feature) := by
  cases feature <;>
    exact ⟨⟨by decide, by decide, by decide⟩, ⟨by decide, by decide, by decide⟩,
      ⟨by decide, by decide, by decide⟩⟩

namespace IsFeatureName

variable {name text : String} {components : List Component}

/-- A name is spelled by itself. -/
theorem spells (h : IsFeatureName name) : Spells [written (.ident name)] name :=
  Component.spells_word ⟨h.isName, h.identifierText⟩

/-- A name in front of a colon. -/
theorem colon (h : IsFeatureName name) (hb : ReadFrom components text) :
    ReadFrom (written (.ident name) :: written .colon :: components) (name ++ ":" ++ text) := by
  rw [String.append_assoc]
  exact h.spells.toReadFrom.append hb.colon (Component.delimited_append ⟨_, _, rfl, by decide⟩)

/-- A name in front of a greater-than sign. -/
theorem greater (h : IsFeatureName name) (hb : ReadFrom components text) :
    ReadFrom (written (.ident name) :: written (.delim '>') :: components)
      (name ++ ">" ++ text) := by
  have hcss : (Token.Kind.ident name).css = name := h.identifierText
  have hbefore (rest : List Char) :
      (Token.written (.ident name)).ReadsBefore ((">" ++ text).toList ++ rest) := by
    rw [String.toList_append, List.append_assoc]
    refine Token.readsBefore_ident_of_stops h.isName ⟨rfl, rfl⟩ ?_ (.inr h.head)
    exact fun heq => absurd (Option.some.inj heq) (by decide)
  have hread : ReadFrom (written (.ident name) :: written (.delim '>') :: components)
      ((Token.Kind.ident name).css ++ (">" ++ text)) :=
    hb.greater.cons ⟨rfl, nofun⟩ (Token.isPlain_ident name) fun rest _ => hbefore rest
  rw [String.append_assoc]
  rwa [hcss] at hread

/-- A name does not start with a mark. -/
theorem head?_ne (h : IsFeatureName name) (rest : List Char) :
    (name.toList ++ rest).head? ≠ some '!' := by
  have htext : nameText name.toList = name.toList := by
    have heq := congrArg String.toList h.identifierText
    rwa [Css.identifierText, String.toList_ofList] at heq
  have hstart := (startsName_nameText h.isName.ne_nil rest).1
  rw [htext] at hstart
  cases hname : name.toList ++ rest with
  | nil => simp
  | cons c tail =>
      rw [hname] at hstart
      exact fun heq => ne_of_startsName hstart rfl (by decide) (by decide) (Option.some.inj heq)

end IsFeatureName

/-- A sign between two sides in front of what does not go on like a mark. -/
theorem Range.readFrom_less (inclusive : Bool) {components : List Component} {text : String}
    (hb : ReadFrom components text) (h : ∀ rest, (text.toList ++ rest).head? ≠ some '!') :
    ReadFrom (lessComponents inclusive ++ components) (lessSign inclusive ++ text) := by
  cases inclusive with
  | false => exact hb.less h
  | true =>
      have hequals : ∀ rest, (("=" ++ text).toList ++ rest).head? ≠ some '!' := by
        intro rest
        rw [String.toList_append, List.append_assoc]
        exact fun heq => absurd (Option.some.inj heq) (by decide)
      have hread := hb.equals.less hequals
      rwa [← String.append_assoc] at hread

/-- A sign between two sides delimits the first. -/
theorem Range.delimited_less (inclusive : Bool) (text : String) :
    Delimited (lessSign inclusive ++ text).toList := by
  cases inclusive <;> exact Component.delimited_append ⟨'<', _, rfl, by decide⟩

/-- A form is read from its text. -/
theorem RangeForm.readFrom (feature : RangedFeature) {form : RangeForm}
    (hread : ∀ v ∈ form.values, v.IsRead) (h : ∀ v ∈ form.values, v.IsWritable) :
    ReadFrom (form.components (Vocabulary.word feature)) (form.text (Vocabulary.word feature)) := by
  obtain ⟨hname, hmin, hmax⟩ := feature.isFeatureName
  have hspells : ∀ v ∈ form.values, Spells v.components v.text :=
    fun v hv => v.spells (hread v hv) (h v hv)
  have hhead : ∀ v ∈ form.values, ∀ rest, (v.text.toList ++ rest).head? ≠ some '!' :=
    fun v hv => v.head?_text_ne (hread v hv) (h v hv) (by decide) (by decide) rfl
  cases form with
  | bare => exact hname.spells.toReadFrom
  | equal value => exact hname.colon (hspells value (by simp [values])).toReadFrom
  | between lower upper =>
      have hupper := Range.readFrom_less upper.inclusive
        (hspells upper.value (by simp [values])).toReadFrom (hhead upper.value (by simp [values]))
      have hright := hname.spells.toReadFrom.append hupper (Range.delimited_less _ _)
      have hleft := Range.readFrom_less lower.inclusive hright fun rest => by
        rw [String.toList_append, List.append_assoc]
        exact hname.head?_ne _
      have hall := (hspells lower.value (by simp [values])).toReadFrom.append hleft
        (Range.delimited_less _ _)
      simpa [components, text, String.append_assoc] using hall
  | atLeast lower =>
      have hvalue := (hspells lower.value (by simp [values])).toReadFrom
      simp only [components, text]
      split
      · exact hmin.colon hvalue
      · exact hname.greater hvalue
  | atMost upper =>
      have hvalue := (hspells upper.value (by simp [values])).toReadFrom
      simp only [components, text]
      split
      · exact hmax.colon hvalue
      · rw [String.append_assoc]
        exact hname.spells.toReadFrom.append (hvalue.less (hhead upper.value (by simp [values])))
          (Component.delimited_append ⟨_, _, rfl, by decide⟩)

/-- The component of a discrete value. -/
def DiscreteValue.component : DiscreteValue → Component
  | .zero => written (.number (.ofInt 0))
  | .one => written (.number (.ofInt 1))
  | value => written (.ident value.css)

/-- A discrete value is spelled by its text. -/
theorem DiscreteValue.spells (value : DiscreteValue) : Spells [value.component] value.css := by
  have hinteger {n : ℤ} (h : n.natAbs < 10) :
      Spells [written (.number (.ofInt n))] (toString n) :=
    Component.spells_integer (h.trans_le (Nat.le_self_pow (by decide) 10))
  cases value with
  | zero => exact hinteger (n := 0) (by decide)
  | one => exact hinteger (n := 1) (by decide)
  | _ => exact Component.spells_word (by decide)

/-- The names of discrete features are words that are written as they are. -/
theorem DiscreteFeature.spells_word (feature : DiscreteFeature) :
    Spells [written (.ident (Vocabulary.word feature))] (Vocabulary.word feature) := by
  cases feature <;> exact Component.spells_word (by decide)

namespace Feature

/-- The values that a ranged feature is compared with. -/
def values : Feature → List RangeValue
  | ranged _ range => range.values
  | discrete _ _ => []

/-- A range is bounded at one end at least. -/
def IsBounded : Feature → Prop
  | ranged _ range => range.IsBounded
  | discrete _ _ => True

/-- The canonical text of a feature that can be written. -/
def text : Feature → String
  | ranged name range => range.form.text (Vocabulary.word name)
  | discrete name none => Vocabulary.word name
  | discrete name (some value) => Vocabulary.word name ++ ":" ++ value.css

/-- The components of a feature. -/
def components : Feature → List Component
  | ranged name range => range.form.components (Vocabulary.word name)
  | discrete name none => [written (.ident (Vocabulary.word name))]
  | discrete name (some value) =>
    [written (.ident (Vocabulary.word name)), written .colon, value.component]

/-- The feature that is read back. -/
def asWritten : Feature → Feature
  | ranged name range => .ranged name (range.form.asWritten name.zero)
  | discrete name value => .discrete name value

variable {f : Feature}

/-- A feature has a canonical text. -/
theorem css_eq (hbounded : f.IsBounded) (h : ∀ v ∈ f.values, v.IsWritable) :
    f.css = .ok f.text := by
  cases f with
  | ranged name range => exact range.css_eq _ hbounded h
  | discrete name value => cases value <;> rfl

/-- The feature that is read back has the same text. -/
theorem css_asWritten (hbounded : f.IsBounded) (hread : ∀ v ∈ f.values, v.IsRead)
    (h : ∀ v ∈ f.values, v.IsWritable) : f.asWritten.css = .ok f.text := by
  cases f with
  | ranged name range =>
      have hzero : name.zero.isZero = true := by cases name <;> decide
      exact range.css_asWritten _ hzero hbounded hread h
  | discrete name value => cases value <;> rfl

/-- A feature is read from its text. -/
theorem readFrom (hread : ∀ v ∈ f.values, v.IsRead) (h : ∀ v ∈ f.values, v.IsWritable) :
    ReadFrom f.components f.text := by
  cases f with
  | ranged name range =>
      exact RangeForm.readFrom name (fun v hv => hread v (range.mem_values_of_form hv))
        fun v hv => h v (range.mem_values_of_form hv)
  | discrete name value =>
      cases value with
      | none => exact name.spells_word.toReadFrom
      | some value =>
          rw [text, String.append_assoc]
          exact name.spells_word.toReadFrom.append value.spells.toReadFrom.colon
            (Component.delimited_append ⟨_, _, rfl, by decide⟩)

end Feature

/-- Round brackets around components. -/
def Component.round (contents : List Component) : Component :=
  .group (.written (.opening .round)) contents (some (.written (.closing .round)))

namespace Expression

/-- The canonical text of an expression that can be written. -/
def text (e : Expression) : String := Bracket.round.around e.feature.text

/-- The component of an expression. -/
def component (e : Expression) : Component := .round e.feature.components

/-- The expression that is read back. -/
def asWritten (e : Expression) : Expression := ⟨e.feature.asWritten⟩

/-- The expression can be written, and its text can be read. -/
structure IsSpelled (e : Expression) : Prop where
  bounded : e.feature.IsBounded
  read : ∀ v ∈ e.feature.values, v.IsRead
  writable : ∀ v ∈ e.feature.values, v.IsWritable

variable {e : Expression}

/-- An expression has a canonical text. -/
theorem css_eq (h : e.IsSpelled) : e.css = .ok e.text := by
  rw [css, Feature.css_eq h.bounded h.writable]
  rfl

/-- The expression that is read back has the same text. -/
theorem css_asWritten (h : e.IsSpelled) : e.asWritten.css = .ok e.text := by
  rw [css, asWritten, Feature.css_asWritten h.bounded h.read h.writable]
  rfl

/-- An expression is spelled by its text. -/
theorem spells (h : e.IsSpelled) : Spells [e.component] e.text where
  toReadFrom := (Feature.readFrom h.read h.writable).around .round
  visible := ⟨'(', _, by rw [text, Bracket.around, String.append_assoc, String.toList_append]; rfl,
    rfl⟩

end Expression

namespace MediaQuery

/-- The components between two parts of a query. -/
def andComponents : List Component := [space, written (.ident "and"), space]

/-- The parts of a query, which are its media type and its expressions, with their texts. -/
def parts (q : MediaQuery) : List (Component × String) :=
  q.mediaType.toList.map (fun name => (written (.ident name), name)) ++
    q.expressions.map fun e => (e.component, e.text)

/-- The canonical text of a query that can be written. -/
def text (q : MediaQuery) : String :=
  (q.qualifier.map fun word => Vocabulary.word word ++ " ").getD "" ++
    " and ".intercalate (q.parts.map Prod.snd)

/-- The components of a qualifier. -/
def qualifierComponents : Option MediaQualifier → List Component
  | none => []
  | some word => [written (.ident (Vocabulary.word word)), space]

/-- The components of the parts of a query. -/
def partComponents (q : MediaQuery) : List Component :=
  match q.parts with
  | [] => []
  | first :: others => first.1 :: others.flatMap fun part => andComponents ++ [part.1]

/-- The components of a query. -/
def components (q : MediaQuery) : List Component :=
  qualifierComponents q.qualifier ++ q.partComponents

/-- The query that is read back. -/
def asWritten (q : MediaQuery) : MediaQuery :=
  { q with expressions := q.expressions.map Expression.asWritten }

/-- The query can be written, and its text can be read: its media type needs no escapes. -/
structure IsSpelled (q : MediaQuery) : Prop where
  mediaType : ∀ word ∈ q.mediaType, IsName word ∧ identifierText word = word ∧
    Text.lowerCase word = word ∧ word ∉ reserved
  expressions : ∀ e ∈ q.expressions, e.IsSpelled
  qualified : q.qualifier.isSome → q.mediaType.isSome
  nonempty : q.mediaType = none → q.expressions ≠ []

variable {q : MediaQuery}

/-- The texts of the parts of a query. -/
theorem map_parts (q : MediaQuery) :
    q.parts.map Prod.snd = q.mediaType.toList ++ q.expressions.map Expression.text := by
  simp [parts, Function.comp_def]

/-- The text of a query is that of its qualifier and its parts. -/
theorem css_of_mapM {texts : List String} (h : q.expressions.mapM Expression.css = .ok texts)
    (hempty : q.expressions.isEmpty = texts.isEmpty) :
    q.css = .ok ((q.qualifier.map fun word => Vocabulary.word word ++ " ").getD "" ++
      " and ".intercalate (q.mediaType.toList ++ texts)) := by
  rw [css, h, hempty]
  show Except.ok _ = _
  rw [String.append_assoc]
  congr 2
  cases q.mediaType with
  | none => exact String.empty_append
  | some name =>
      cases texts with
      | nil => exact String.append_empty
      | cons first others =>
          rw [Option.toList_some, List.singleton_append, String.intercalate_cons_cons]
          rfl

/-- A query has a canonical text. -/
theorem css_eq (h : q.IsSpelled) : q.css = .ok q.text := by
  rw [text, map_parts]
  refine css_of_mapM (mapM_eq_ok fun e he => Expression.css_eq (h.expressions e he)) ?_
  rw [List.isEmpty_map]

/-- The query that is read back has the same text. -/
theorem css_asWritten (h : q.IsSpelled) : q.asWritten.css = .ok q.text := by
  rw [text, map_parts]
  refine css_of_mapM (q := q.asWritten) ?_ ?_
  · rw [asWritten, List.mapM_map]
    exact mapM_eq_ok fun e he => Expression.css_asWritten (h.expressions e he)
  · rw [asWritten, List.isEmpty_map, List.isEmpty_map]

/-- A query has a part. -/
theorem parts_ne_nil (h : q.IsSpelled) : q.parts ≠ [] := by
  unfold parts
  cases hmediaType : q.mediaType with
  | none => simpa using h.nonempty hmediaType
  | some name => exact List.cons_ne_nil _ _

/-- A part of a query is spelled by its text. -/
theorem spells_of_mem_parts (h : q.IsSpelled) :
    ∀ part ∈ q.parts, Spells [part.1] part.2 := by
  intro part hpart
  rcases List.mem_append.mp hpart with hpart | hpart
  · obtain ⟨name, hname, rfl⟩ := List.mem_map.mp hpart
    obtain ⟨hisName, hword, -⟩ := h.mediaType name (Option.mem_toList.mp hname)
    exact Component.spells_word ⟨hisName, hword⟩
  · obtain ⟨e, he, rfl⟩ := List.mem_map.mp hpart
    exact Expression.spells (h.expressions e he)

/-- The parts of a query are spelled with `and` between them. -/
theorem spells_parts (h : q.IsSpelled) :
    Spells q.partComponents (" and ".intercalate (q.parts.map Prod.snd)) := by
  have hand {a b : List Component} {x y : String} (ha : Spells a x) (hb : Spells b y) :
      Spells (a ++ (andComponents ++ b)) (x ++ " and " ++ y) := by
    have hword : Spells [written (.ident "and")] "and" := Component.spells_word (by decide)
    have htext : x ++ " and " ++ y = x ++ " " ++ ("and" ++ " " ++ y) := by
      rw [String.append_assoc, String.append_assoc, String.append_assoc]
      rfl
    rw [htext]
    exact ha.append_space (hword.append_space hb)
  have hspells := spells_of_mem_parts h
  unfold partComponents
  cases hparts : q.parts with
  | nil => exact absurd hparts (parts_ne_nil h)
  | cons first others =>
      rw [hparts] at hspells
      exact Component.spells_intercalate hand first others hspells

/-- A query is spelled by its text. -/
theorem spells (h : q.IsSpelled) : Spells q.components q.text := by
  unfold components text
  cases q.qualifier with
  | none =>
      rw [Option.map_none, Option.getD_none, String.empty_append]
      exact spells_parts h
  | some word =>
      have hword : Spells [written (.ident (Vocabulary.word word))] (Vocabulary.word word) := by
        cases word <;> exact Component.spells_word (by decide)
      exact hword.append_space (spells_parts h)

end MediaQuery

namespace MediaList

/-- The canonical text of a list that can be written. -/
def text (l : MediaList) : String := ", ".intercalate (l.queries.map MediaQuery.text)

/-- The components of a list. -/
def components (l : MediaList) : List Component :=
  Component.commaComponents MediaQuery.components l.queries

/-- The list that is read back. -/
def asWritten (l : MediaList) : MediaList := ⟨l.queries.map MediaQuery.asWritten⟩

variable {l : MediaList}

/-- A list has a canonical text. -/
theorem css_eq (h : ∀ q ∈ l.queries, q.IsSpelled) : l.css = .ok l.text := by
  rw [css, mapM_eq_ok fun q hq => MediaQuery.css_eq (h q hq)]
  rfl

/-- The list that is read back has the same text. -/
theorem css_asWritten (h : ∀ q ∈ l.queries, q.IsSpelled) : l.asWritten.css = .ok l.text := by
  have hqueries : l.queries.mapM (MediaQuery.css ∘ MediaQuery.asWritten) =
      .ok (l.queries.map MediaQuery.text) :=
    mapM_eq_ok fun q hq => MediaQuery.css_asWritten (h q hq)
  rw [css, asWritten, List.mapM_map, hqueries]
  rfl

/-- A list is read from its text. -/
theorem readFrom (h : ∀ q ∈ l.queries, q.IsSpelled) : ReadFrom l.components l.text := by
  obtain ⟨queries⟩ := l
  cases queries with
  | nil => exact Component.readFrom_nil
  | cons first others =>
      exact (Component.spells_commaComponents (List.cons_ne_nil _ _)
        fun q hq => MediaQuery.spells (h q hq)).toReadFrom

end MediaList

end Css
