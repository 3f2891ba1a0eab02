import Css.Token.Source
import Mathlib

/-!
# Tokens tile the source

The tokens of a source text lie one after another without gaps, each takes at least one character,
and together they are the text. `Source.ofString_tiles` says so for every text that can be read,
together with the line and the column of every token, and says why the other texts cannot be read.
-/

namespace Css

namespace Position

/-- The place behind a text that stands at the beginning: lines are counted by the line feeds in
front of it, columns from the last of them. -/
def behind (text : List Char) : Position :=
  ⟨text.length, 1 + text.count '\n', 1 + (text.reverse.takeWhile (· ≠ '\n')).length⟩

/-- Moving over a text from the first place leads to the place behind it. -/
theorem advance_first (text : List Char) : first.advance text = behind text := by
  induction text using List.reverseRecOn with
  | nil => rfl
  | append_singleton text c ih =>
      rw [advance_append, ih]
      show (behind text).step c = behind (text ++ [c])
      by_cases hc : c = '\n'
      · subst hc
        simp [step, behind]
        omega
      · simp [step, behind, hc]
        omega

end Position

/-- A token ends as many characters behind its start as it has. -/
theorem Token.offset_stop (t : Token) : t.stop.offset = t.start.offset + t.text.length :=
  Position.offset_advance t.start t.text

/-- Tokens that lie one after another from the given place on. -/
def Contiguous (start : Position) : List Token → Prop
  | [] => True
  | t :: rest => t.start = start ∧ Contiguous t.stop rest

/-- Behind contiguous tokens, others are contiguous from the place where the text of the first ones
leads. -/
theorem contiguous_append {start : Position} {front back : List Token} :
    Contiguous start (front ++ back) ↔
      Contiguous start front ∧ Contiguous (start.advance (front.flatMap Token.text)) back := by
  induction front generalizing start with
  | nil => simp [Contiguous]
  | cons t front ih =>
      simp only [List.cons_append, Contiguous, ih, List.flatMap_cons, Position.advance_append]
      constructor
      · rintro ⟨rfl, hfront, hback⟩
        exact ⟨⟨rfl, hfront⟩, hback⟩
      · rintro ⟨⟨rfl, hfront⟩, hback⟩
        exact ⟨rfl, hfront, hback⟩

/-- The tokens of a text are contiguous. -/
theorem contiguous_tokensFrom (start : Position) (s : List Char) :
    Contiguous start (tokensFrom start s) := by
  fun_induction tokensFrom start s with
  | case1 => trivial
  | case2 start c rest token ih => exact ⟨rfl, ih⟩

/-- No token of a text is empty. -/
theorem text_ne_nil_of_mem_tokensFrom {start : Position} {s : List Char} {t : Token}
    (h : t ∈ tokensFrom start s) : t.text ≠ [] := by
  fun_induction tokensFrom start s with
  | case1 => cases h
  | case2 start c rest token ih =>
      rcases List.mem_cons.mp h with rfl | h
      · intro hnil
        have hsuffix := scan_suffix c rest
        have happend := textBefore_append (hsuffix.trans (List.suffix_cons c rest))
        have hlength := congrArg List.length happend
        simp only [token] at hnil
        rw [hnil, List.nil_append, List.length_cons] at hlength
        have := hsuffix.length_le
        omega
      · exact ih h

/-- The digits of a numeral that denotes an integer. -/
def Numeral.integerDigits? (n : Numeral) : Option Nat :=
  if n.value.isInteger then some (n.text.toList.filter isDigit).length else none

/-- The token is an integer literal, with or without a unit, of this many digits. -/
def Token.HasDigits (t : Token) (count : Nat) : Prop :=
  t.kind.numeral?.bind Numeral.integerDigits? = some count

/-- The digits of a numeral exceed the limit if it denotes an integer that is written with more. -/
theorem Numeral.excessDigits?_eq_some_iff {n : Numeral} {count : Nat} :
    n.excessDigits? = some count ↔ n.integerDigits? = some count ∧ digitLimit < count := by
  unfold excessDigits? integerDigits?
  cases n.value.isInteger
  · simp
  · by_cases h : digitLimit < (n.text.toList.filter isDigit).length
    · simp only [true_and, h, if_true, Option.some.injEq]
      constructor
      · rintro rfl
        exact ⟨rfl, h⟩
      · rintro ⟨rfl, _⟩
        rfl
    · simp only [true_and, h, if_false, if_true, Option.some.injEq, reduceCtorEq, false_iff]
      rintro ⟨rfl, hcount⟩
      exact h hcount

/-- The check of a token for too many digits finds the digits of an integer literal. -/
theorem Token.excessDigits_eq_some_iff {t : Token} {count : Nat} :
    t.kind.numeral?.bind Numeral.excessDigits? = some count ↔
      t.HasDigits count ∧ digitLimit < count := by
  unfold HasDigits
  cases t.kind.numeral? with
  | none => simp
  | some n => simpa using Numeral.excessDigits?_eq_some_iff

namespace Source

/-- The tokens of a source fill a text without gaps and stand where their offsets say. -/
structure Tiles (source : Source) (text : List Char) : Prop where
  covers : source.tokens.flatMap Token.text = text
  first_start : ∀ t ∈ source.tokens.head?, t.start.offset = 0
  start_lt_stop : ∀ t ∈ source.tokens, t.start.offset < t.stop.offset
  adjacent : source.tokens.IsChain fun t next => t.stop.offset = next.start.offset
  last_stop : ∀ t ∈ source.tokens.getLast?, t.stop.offset = text.length
  text_eq : ∀ t ∈ source.tokens,
    t.text = (text.drop t.start.offset).take (t.stop.offset - t.start.offset)
  start_eq : ∀ t ∈ source.tokens, t.start = .behind (text.take t.start.offset)
  stop_eq : source.stop = .behind text

/-- Contiguous tokens end where the next ones start. -/
theorem isChain_of_contiguous {start : Position} {tokens : List Token}
    (h : Contiguous start tokens) :
    tokens.IsChain fun t next => t.stop.offset = next.start.offset := by
  induction tokens generalizing start with
  | nil => exact .nil
  | cons t rest ih =>
      cases rest with
      | nil => exact .singleton t
      | cons next rest =>
          refine .cons_cons ?_ (ih h.2)
          rw [h.2.1]

/-- A token of a contiguous row starts behind the text of the tokens in front of it. -/
theorem start_of_contiguous {front back : List Token} {t : Token}
    (h : Contiguous .first (front ++ t :: back)) :
    t.start = .behind (front.flatMap Token.text) := by
  rw [← Position.advance_first]
  exact (contiguous_append.mp h).2.1

/-- Contiguous tokens that are not empty tile the text that they make up. -/
theorem tiles_of_contiguous {tokens : List Token} (h : Contiguous .first tokens)
    (hne : ∀ t ∈ tokens, t.text ≠ []) :
    Tiles ⟨tokens, Position.first.advance (tokens.flatMap Token.text)⟩
      (tokens.flatMap Token.text) where
  covers := rfl
  first_start := by
    intro t ht
    obtain ⟨rest, rfl⟩ := List.head?_eq_some_iff.mp ht
    rw [h.1]
    rfl
  start_lt_stop := by
    intro t ht
    have := List.length_pos_iff.mpr (hne t ht)
    rw [t.offset_stop]
    omega
  adjacent := isChain_of_contiguous h
  last_stop := by
    intro t ht
    obtain ⟨front, rfl⟩ := List.getLast?_eq_some_iff.mp ht
    rw [t.offset_stop, start_of_contiguous h]
    simp [Position.behind]
  text_eq := by
    intro t ht
    obtain ⟨front, back, rfl⟩ := List.append_of_mem ht
    have hstart := start_of_contiguous h
    rw [t.offset_stop, hstart]
    simp [Position.behind]
  start_eq := by
    intro t ht
    obtain ⟨front, back, rfl⟩ := List.append_of_mem ht
    have hstart := start_of_contiguous h
    rw [hstart]
    simp [Position.behind]
  stop_eq := Position.advance_first _

/-- A text is read into its tokens if none of them has too many digits. -/
theorem ofString_eq_ok_iff {text : String} {source : Source} :
    ofString text = .ok source ↔
      (∀ t ∈ tokensFrom .first (normalize text.toList), ∀ count,
        t.HasDigits count → count ≤ digitLimit) ∧
      source = ⟨tokensFrom .first (normalize text.toList),
        Position.first.advance (normalize text.toList)⟩ := by
  simp only [ofString]
  cases hfound : (tokensFrom .first (normalize text.toList)).findSome? fun t =>
      t.kind.numeral?.bind Numeral.excessDigits? with
  | some count =>
      obtain ⟨t, ht, hexcess⟩ := List.exists_of_findSome?_eq_some hfound
      obtain ⟨hdigits, hlimit⟩ := Token.excessDigits_eq_some_iff.mp hexcess
      simp only [reduceCtorEq, false_iff, not_and]
      intro hall
      exact absurd (hall t ht count hdigits) (Nat.not_le_of_lt hlimit)
  | none =>
      rw [List.findSome?_eq_none_iff] at hfound
      simp only [Except.ok.injEq, eq_comm (b := source), iff_and_self]
      rintro - t ht count hdigits
      by_contra hlimit
      have hexcess := Token.excessDigits_eq_some_iff.mpr ⟨hdigits, Nat.lt_of_not_le hlimit⟩
      exact absurd (hfound t ht) (by simp [hexcess])

/-- A text is refused because of the digits of one of its integer literals. -/
theorem digits_of_ofString_eq_error {text : String} {count : Nat}
    (h : ofString text = .error (.tooManyDigits count)) :
    digitLimit < count ∧
      ∃ t ∈ tokensFrom .first (normalize text.toList), t.HasDigits count := by
  simp only [ofString] at h
  split at h
  · rename_i found hfound
    cases h
    obtain ⟨t, ht, hexcess⟩ := List.exists_of_findSome?_eq_some hfound
    obtain ⟨hdigits, hlimit⟩ := Token.excessDigits_eq_some_iff.mp hexcess
    exact ⟨hlimit, t, ht, hdigits⟩
  · cases h

/-- Every text either has tokens that tile its normalized form, none of them with too many digits,
or holds an integer literal with more digits than may be read, which is the reason for the
refusal. -/
theorem ofString_tiles (text : String) :
    (∃ source, ofString text = .ok source ∧ source.Tiles (normalize text.toList) ∧
      ∀ t ∈ source.tokens, ∀ count, t.HasDigits count → count ≤ digitLimit) ∨
    ∃ count, ofString text = .error (.tooManyDigits count) ∧ digitLimit < count ∧
      ∃ t ∈ tokensFrom .first (normalize text.toList), t.HasDigits count := by
  cases h : ofString text with
  | error e =>
      obtain ⟨count⟩ := e
      exact .inr ⟨count, rfl, digits_of_ofString_eq_error h⟩
  | ok source =>
      obtain ⟨hdigits, rfl⟩ := ofString_eq_ok_iff.mp h
      have htiles := tiles_of_contiguous (contiguous_tokensFrom .first (normalize text.toList))
        fun t ht => text_ne_nil_of_mem_tokensFrom ht
      rw [flatMap_text_tokensFrom] at htiles
      exact .inl ⟨_, rfl, htiles, hdigits⟩

end Source

end Css
