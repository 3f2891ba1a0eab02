import Css.Proofs.Component.Captured
import Css.Proofs.Parser.Kept

/-!
# Sources from which trimming takes nothing but white space

A token is tight if it can stand at an end of a captured text: it neither starts nor ends with a
character that trimming takes, apart from the white space behind an escape, and does not escape what
is written behind it. What is kept of the components of a tight source is read back in front of
every ending, `Component.AreTight.exists_captured`.
-/

namespace Css

open Component (EndsInGap)

/-- Trimming a text that starts or ends with the token takes nothing from it but the white space
behind an escape, and the token leaves alone what is written behind it. -/
structure Token.KeepsEnds (t : Token) : Prop where
  first : t.text.head?.any Text.isBlank = false
  last : t.text.getLast?.any Text.isBlank = false ∨ ∃ text, EndsInGap t text
  unbroken : breaksOff t.text = false

/-- A token that is neither white space nor cut off by the end of the text keeps its ends. -/
def Token.IsTight (t : Token) : Prop :=
  t.kind.isClosed → (∀ text, t.kind ≠ .space text) → t.KeepsEnds

/-- The tokens of the source are tight. -/
def Source.IsTight (source : Source) : Prop :=
  ∀ t ∈ source.tokens, t.IsTight

namespace Token

/-- The token is seen to be tight: it is white space, or it starts and ends visibly and does not
escape what is written behind it. -/
def seemsTight (t : Token) : Bool :=
  t.kind matches .space _ ||
    !t.text.head?.any Text.isBlank && !t.text.getLast?.any Text.isBlank && !breaksOff t.text

/-- What is seen to be tight is. -/
theorem isTight_of_seemsTight {t : Token} (h : t.seemsTight) : t.IsTight := by
  intro _ hspace
  have hvisible : t.text.head?.any Text.isBlank = false ∧ t.text.getLast?.any Text.isBlank = false ∧
      breaksOff t.text = false := by
    unfold seemsTight at h
    cases hkind : t.kind <;> simp_all
  exact ⟨hvisible.1, .inl hvisible.2.1, hvisible.2.2⟩

end Token

/-- A source is tight if all its tokens are seen to be. -/
theorem Source.isTight_of_all {source : Source} (h : source.tokens.all Token.seemsTight) :
    source.IsTight :=
  fun t ht => Token.isTight_of_seemsTight (List.all_eq_true.mp h t ht)

namespace Token

/-- What is written for a token that the end of the text cut off starts and ends visibly. -/
theorem CutOff.visible {kind : Kind} {text : List Char} (h : CutOff kind text) :
    kind.css.toList.head?.any Text.isBlank = false ∧ kind.css.toList ≠ [] ∧
      kind.css.toList.getLast?.any Text.isBlank = false := by
  have hlast {front back : List Char} (hne : back ≠ [])
      (hback : back.getLast?.any Text.isBlank = false) :
      (front ++ back).getLast?.any Text.isBlank = false := by
    rwa [List.getLast?_append_of_ne_nil _ hne]
  cases h with
  | string hquote =>
      rw [Kind.css, stringText, String.toList_ofList]
      exact ⟨rfl, by simp, hlast (by simp) rfl⟩
  | url hname =>
      rw [Kind.css, String.toList_append, String.toList_append]
      exact ⟨rfl, by simp, hlast (by simp) rfl⟩
  | comment hread =>
      rw [Kind.css, if_neg (by simp), String.toList_append, String.toList_ofList]
      exact ⟨rfl, by simp, hlast (by simp) rfl⟩

end Token

namespace Component

variable {components : List Component} {closer : Option Bracket} {rest : List Char}

/-- A component of a tight source that is no white space starts visibly. -/
theorem StandsBefore.first_closedText {c : Component} (h : StandsBefore closer rest [c])
    (htight : c.All (AllTokens Token.IsTight)) (hgap : c.isGap = false) :
    c.closedText.head?.any Text.isBlank = false ∧ c.closedText ≠ [] := by
  have hread := h.readBack
  have htoken := htight.token
  cases c with
  | leaf t =>
      rw [tokensOf, tokensOf, tokens, List.append_nil] at hread
      rw [closedText]
      split
      · rename_i hclosed
        refine ⟨(htoken hclosed fun text hkind => ?_).first, hread.1.text_ne_nil⟩
        exact absurd (isGap_iff.mpr ⟨t, text, rfl, hkind⟩) (by simp [hgap])
      · rename_i hclosed
        have hvisible := (hread.1.cutOff (by simpa using hclosed)).visible
        exact ⟨hvisible.1, hvisible.2.1⟩
  | group opening contents closing =>
      obtain ⟨bracket, hbracket, -⟩ := h.contents
      rw [tokensOf, tokensOf, tokens, List.append_nil] at hread
      have hne : opening.text ≠ [] := hread.1.text_ne_nil
      have hfirst := (htoken (by cases hkind : opening.kind <;> simp_all [token, Token.Kind.closer?,
          Token.Kind.isClosed]) (by rintro text hkind; simp_all [token, Token.Kind.closer?])).first
      obtain ⟨tail, htail⟩ : ∃ tail, (group opening contents closing).closedText =
          opening.text ++ tail := by
        cases closing <;> exact ⟨_, List.append_assoc ..⟩
      rw [htail]
      exact ⟨by rwa [List.head?_append_of_ne_nil _ hne], by simp [hne]⟩

/-- A component of a tight source that is no white space ends visibly, apart from the white space
behind an escape. -/
theorem StandsBefore.last_closedText {c : Component} (h : StandsBefore closer rest [c])
    (htight : c.All (AllTokens Token.IsTight)) (hgap : c.isGap = false) :
    c.closedText.getLast?.any Text.isBlank = false ∨ ∃ t text, c = leaf t ∧ EndsInGap t text := by
  have hread := h.readBack
  cases c with
  | leaf t =>
      rw [tokensOf, tokensOf, tokens, List.append_nil] at hread
      rw [closedText]
      split
      · rename_i hclosed
        have hkeeps := htight.token hclosed fun text hkind =>
          absurd (isGap_iff.mpr ⟨t, text, rfl, hkind⟩) (by simp [hgap])
        exact hkeeps.last.imp_right fun ⟨text, hends⟩ => ⟨t, text, rfl, hends⟩
      · rename_i hclosed
        exact .inl (hread.1.cutOff (by simpa using hclosed)).visible.2.2
  | group opening contents closing =>
      obtain ⟨bracket, hbracket, -, hclosing⟩ := h.contents
      left
      cases closing with
      | some t =>
          have hkind := (hclosing t rfl).1
          have hne : t.text ≠ [] := by
            rw [tokensOf, tokensOf, tokens, List.append_nil] at hread
            exact (Token.readBack_append.mp hread.2).2.1.text_ne_nil
          have hkeeps : t.KeepsEnds := htight t
            (by simp [tokensOf, tokens]) (by rw [hkind]; rfl) (by simp [hkind])
          rcases hkeeps.last with hlast | ⟨text, hends⟩
          · rwa [closedText, List.getLast?_append_of_ne_nil _ hne]
          · exact absurd hends.isName (by simp [hkind, Token.Kind.isName])
      | none =>
          rw [closedText, hbracket]
          cases bracket <;> simp [Bracket.closer] <;> decide

/-- The last token of a tight row does not escape what is written behind the row. -/
theorem StandsBefore.unbroken (h : StandsBefore closer rest components)
    (htight : AllTokens Token.IsTight components) :
    ∀ t ∈ (tokensOf components).getLast?, t.kind.isClosed → breaksOff t.text = false := by
  intro t ht hclosed
  obtain ⟨front, hfront⟩ := List.getLast?_eq_some_iff.mp ht
  by_cases hspace : ∃ text, t.kind = .space text
  · obtain ⟨text, hkind⟩ := hspace
    have hread := h.readBack
    rw [hfront] at hread
    have hall := (Token.readBack_append.mp hread).2.1.all_isSpace hkind
    exact breaksOff_of_not_mem fun hmem => absurd (hall _ hmem) (by decide)
  · exact (htight t (List.mem_of_getLast? ht) hclosed (not_exists.mp hspace)).unbroken

/-- What is left of a tight row without the white space at its ends keeps its ends. -/
theorem StandsBefore.keepsEnds_stripOf (h : StandsBefore closer rest components)
    (htight : AllTokens Token.IsTight components) : KeepsEnds (stripOf components) := by
  obtain ⟨front, back, hsplit, -, -, hlast⟩ := stripOf_append components
  have hhead := not_of_mem_head?_rdropWhile isGap components
  rw [← stripOf] at hhead
  generalize stripOf components = stripped at *
  subst hsplit
  replace h := h.of_append.1.of_append.2
  replace htight := Hereditary.of_infix htight ⟨front, back, rfl⟩
  refine ⟨?_, ?_, h.unbroken htight⟩
  · cases stripped with
    | nil => rfl
    | cons c others =>
        obtain ⟨hvisible, hne⟩ := (h.of_append (a := [c])).1.first_closedText
          (Hereditary.of_mem htight (List.mem_cons_self ..)) (hhead c rfl)
        rwa [closedTextOf, List.head?_append_of_ne_nil _ hne]
  · rcases List.eq_nil_or_concat' stripped with rfl | ⟨others, c, rfl⟩
    · exact .inl rfl
    · have hc := h.of_append.2
      have hmem : c.All (AllTokens Token.IsTight) := Hereditary.of_mem htight (by simp)
      have hgap := hlast c (by simp)
      rcases hc.last_closedText hmem hgap with hvisible | ⟨t, text, rfl, hends⟩
      · left
        rw [closedTextOf_append, closedTextOf, closedTextOf, List.append_nil,
          List.getLast?_append_of_ne_nil _ (hc.first_closedText hmem hgap).2]
        exact hvisible
      · exact .inr ⟨others, t, text, rfl, hends⟩

/-- The components stand in a source, and their tokens are tight. -/
structure AreTight (components : List Component) : Prop where
  lexed : Lexed components
  tight : AllTokens Token.IsTight components

instance : Hereditary AreTight where
  of_infix h hpart := ⟨Hereditary.of_infix h.lexed hpart, Hereditary.of_infix h.tight hpart⟩
  contents h := ⟨Hereditary.contents h.lexed, Hereditary.contents h.tight⟩

/-- What is kept of components of a tight source, if it holds no error token, is read back in front
of every ending. -/
theorem AreTight.exists_captured (h : AreTight components)
    (herror : errorTokenOf? components = none) :
    ∃ values, Captured values (keptText components).toList ∧
      saidOf values = saidOf (closedOf (stripOf (components.rdropWhile isFiller))) := by
  obtain ⟨gap, hgap⟩ := List.rdropWhile_prefix isFiller components
  have hpart : components.rdropWhile isFiller <:+: components := ⟨[], gap, by simpa using hgap⟩
  obtain ⟨⟨closer, rest, hstands⟩, hsound, hplain⟩ := Hereditary.of_infix h.lexed hpart
  rw [← hgap, errorTokenOf?_append, Option.or_eq_none_iff] at herror
  rw [keptText, String.toList_ofList]
  exact hstands.exists_captured hsound hplain herror.1
    (hstands.keepsEnds_stripOf (Hereditary.of_infix h.tight hpart))

end Component

/-- The components of a tight source are tight. -/
theorem Source.areTight_ofTokens {text : String} {source : Source}
    (h : Source.ofString text = .ok source) (htight : source.IsTight) :
    Component.AreTight (Component.ofTokens source.tokens) :=
  ⟨Source.lexed_ofTokens h, Component.allTokens_ofTokens htight⟩

end Css
