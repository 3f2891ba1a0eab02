import Css.Proofs.Rule.Reports
import Css.Proofs.Token.Tiling
import Css.Proofs.Parser.Run
import Css.Stylesheet.Basic

/-!
# The faults of stylesheets

The fault for which a text is refused lies in the text: its line and column are those of an offset
between the beginning and the end. If it names anything, that is a token of the text, which the
message quotes in its canonical form. There is one exception: a group that stands where a keyframe
selector is expected is named as a whole, and the message outlines it.
-/

namespace Css

open Css.Parser

/-- Moving over a text from the place behind another one leads to the place behind both. -/
theorem Position.advance_behind (front text : List Char) :
    (behind front).advance text = behind (front ++ text) := by
  rw [← advance_first, ← advance_first, advance_append]

namespace Source

variable {source : Source} {text : List Char}

/-- A token of a source stops behind the characters in front of its end. -/
theorem Tiles.token_stop_eq (h : source.Tiles text) {t : Token} (ht : t ∈ source.tokens) :
    t.stop = .behind (text.take t.stop.offset) := by
  have hless := h.start_lt_stop t ht
  have hsum : t.start.offset + (t.stop.offset - t.start.offset) = t.stop.offset := by omega
  calc t.stop = (Position.behind (text.take t.start.offset)).advance t.text := by
        rw [← h.start_eq t ht]
        rfl
    _ = .behind (text.take t.start.offset ++ t.text) := Position.advance_behind _ _
    _ = .behind (text.take t.stop.offset) := by
        rw [h.text_eq t ht, ← List.take_add, hsum]

/-- A place lies in a text if it is the place behind some of its first characters. -/
def HasPlace (text : List Char) (p : Position) : Prop :=
  ∃ offset ≤ text.length, p = .behind (text.take offset)

/-- Any number of first characters leads to a place in the text. -/
theorem hasPlace_behind (text : List Char) (offset : Nat) :
    HasPlace text (.behind (text.take offset)) := by
  by_cases h : offset ≤ text.length
  · exact ⟨offset, h, rfl⟩
  · refine ⟨text.length, le_rfl, ?_⟩
    rw [List.take_of_length_le (by omega), List.take_length]

/-- The tokens of a source and the places in its text. -/
def scope (h : source.Tiles text) : Scope where
  HasToken t := t ∈ source.tokens
  HasPlace := HasPlace text
  start ht := by
    rw [h.start_eq _ ht]
    exact hasPlace_behind text _
  stop ht := by
    rw [h.token_stop_eq ht]
    exact hasPlace_behind text _

/-- The cursor in front of a source is in its scope. -/
theorem covers_ofSource (h : source.Tiles text) : (scope h).Covers (.ofSource source) where
  rest := Component.allTokens_ofTokens fun _ ht => ht
  stop := ⟨text.length, le_rfl, by rw [List.take_length]; exact h.stop_eq⟩

end Source

/-- No fault names both a component and a counter system. -/
theorem Fault.system?_of_component? {f : Fault} {component : Component}
    (h : f.component? = some component) : f.system? = none := by
  cases f <;> first
    | rfl
    | cases h

/-- The message about a token quotes its canonical text behind the reason. -/
theorem ParseError.message_of_leaf {e : ParseError} {t : Token}
    (h : e.fault.component? = some (.leaf t)) :
    e.message = "Parse error at " ++ toString e.location.line ++ ":" ++
      toString e.location.column ++ ", " ++ e.fault.reason ++ (" " ++ Text.quoted t.kind.css) := by
  unfold message
  rw [h, Fault.system?_of_component? h, Option.map_some, Option.map_none, Option.getD_some,
    Option.getD_none, String.append_empty]
  rfl

namespace Stylesheet

/-- A text is refused with a parse error if its tokens can be read and the run over it meets the
error. -/
theorem ofText_eq_parse_error_iff {mode : Mode} {text : String} {e : ParseError} :
    ofText mode text = .error (.parse e) ↔ ∃ source, Source.ofString text = .ok source ∧
      (RuleList.topLevel (.ofMode mode) ⟨.prologue, .empty⟩ (.ofSource source)).error? =
        some e := by
  unfold ofText
  cases Source.ofString text with
  | error e => simp
  | ok source =>
      simp only [Except.ok.injEq, exists_eq_left']
      cases (RuleList.topLevel (.ofMode mode) ⟨.prologue, .empty⟩ (.ofSource source)).error? with
      | none => simp
      | some e => simp

/-- The error with which a text is refused lies in the text, at the place behind some of its first
characters. What the fault names stands for a token of the text, and is that token alone, whose
canonical text the message quotes. Only a group that is no keyframe selector is named as it is. -/
theorem error_of_ofText {mode : Mode} {text : String} {e : ParseError}
    (h : ofText mode text = .error (.parse e)) :
    ∃ source, Source.ofString text = .ok source ∧
      (∃ offset ≤ (normalize text.toList).length,
        e.location = .behind ((normalize text.toList).take offset)) ∧
      ∀ component ∈ e.fault.component?, component.token ∈ source.tokens ∧
        (component = .leaf component.token ∧
            e.message = "Parse error at " ++ toString e.location.line ++ ":" ++
              toString e.location.column ++ ", " ++ e.fault.reason ++
                (" " ++ Text.quoted component.token.kind.css) ∨
          e.fault = .invalidKeyframeSelector component ∧
            ∃ opening contents closing, component = .group opening contents closing) := by
  obtain ⟨source, hsource, herror⟩ := ofText_eq_parse_error_iff.mp h
  have htiles : source.Tiles (normalize text.toList) := by
    rcases Source.ofString_tiles text with ⟨found, hfound, htiles, -⟩ | ⟨count, hfound, -⟩
    · rw [hsource] at hfound
      cases hfound
      exact htiles
    · rw [hsource] at hfound
      cases hfound
  have hreports := collect_reports (fun c => !c.isExhausted) (Item.topLevelStep (.ofMode mode))
    (Item.reports_topLevelStep (.ofMode mode)) ⟨.prologue, .empty⟩ _ (Source.covers_ofSource htiles)
  obtain ⟨hlocation, hnames⟩ := hreports.2.1 e herror
  refine ⟨source, hsource, hlocation, fun component hcomponent => ?_⟩
  obtain ⟨htoken, hname⟩ := hnames component hcomponent
  refine ⟨htoken, ?_⟩
  cases component with
  | leaf t => exact .inl ⟨rfl, ParseError.message_of_leaf hcomponent⟩
  | group opening contents closing =>
      rcases hname with hleaf | hfault
      · cases hleaf
      · exact .inr ⟨hfault, opening, contents, closing, rfl⟩

/-- A bracket that closes nothing, in front of the second rule, is named by its token. -/
theorem error_of_ofText_closing :
    ∃ e, ofText .strict "a\x7bb:c\x7d\n)d\x7b\x7d" = .error (.parse e) ∧
      e.location = ⟨7, 2, 1⟩ ∧ e.fault.component?.isSome ∧
      ∃ source, Source.ofString "a\x7bb:c\x7d\n)d\x7b\x7d" = .ok source ∧
        (∃ offset ≤ (normalize "a\x7bb:c\x7d\n)d\x7b\x7d".toList).length,
          e.location = .behind ((normalize "a\x7bb:c\x7d\n)d\x7b\x7d".toList).take offset)) ∧
        ∀ component ∈ e.fault.component?, component.token ∈ source.tokens ∧
          (component = .leaf component.token ∧
              e.message = "Parse error at " ++ toString e.location.line ++ ":" ++
                toString e.location.column ++ ", " ++ e.fault.reason ++
                  (" " ++ Text.quoted component.token.kind.css) ∨
            e.fault = .invalidKeyframeSelector component ∧
              ∃ opening contents closing, component = .group opening contents closing) := by
  have hread : ∃ e, ofText .strict "a\x7bb:c\x7d\n)d\x7b\x7d" = .error (.parse e) ∧
      e.location = ⟨7, 2, 1⟩ ∧ e.fault.component?.isSome := ⟨_, by cbv, by cbv, by cbv⟩
  obtain ⟨e, he, hlocation, hnames⟩ := hread
  exact ⟨e, he, hlocation, hnames, error_of_ofText he⟩

/-- A group in brackets where a keyframe selector is expected is named as a whole: what the fault
names is no token of the text, and it is not quoted as its opening token. -/
theorem not_error_names_token :
    ∃ source e component,
      Source.ofString "@keyframes a\x7b(b)\x7b\x7d\x7d" = .ok source ∧
      ofText .strict "@keyframes a\x7b(b)\x7b\x7d\x7d" = .error (.parse e) ∧
      e.fault.component? = some component ∧ (∀ t ∈ source.tokens, component ≠ .leaf t) ∧
      ParseError.nameOf component = "Block('(', [Ident('b')])" ∧
      component.token.kind.css = "(" := by
  refine ⟨_, _, .group _ _ _, by cbv, by cbv, by cbv, nofun, by cbv, by cbv⟩

end Stylesheet

end Css
