import Css.Proofs.Component.Open
import Css.Proofs.Parser.Yields
import Css.Proofs.Token.Canonical
import Css.Proofs.Token.Rows

/-!
# Components of a source

The components of a source, any part of a row of them, and the contents of any group in it are read
back from their text: in front of what follows them in the source, and with nothing cut off unless
nothing follows.
-/

namespace Css

namespace Component

/-- The components stand in a source in front of the given text. -/
structure StandsBefore (closer : Option Bracket) (rest : List Char) (components : List Component) :
    Prop where
  areOpen : AreOpen closer components
  readBack : Token.ReadBack (tokensOf components) rest
  grouped : rest ≠ [] → AreGrouped closer components

/-- The components stand somewhere in a source. -/
structure Lexed (components : List Component) : Prop where
  stands : ∃ closer rest, StandsBefore closer rest components
  sound : AllTokens (fun t => t.kind.Sound) components
  plain : AllTokens Token.IsPlain components

/-- A token of a row that is not its last part is not empty. -/
theorem textOf_tokensOf_ne_nil {components : List Component} {rest : List Char}
    (h : Token.ReadBack (tokensOf components) rest) (hne : components ≠ []) :
    Token.textOf (tokensOf components) ++ rest ≠ [] := by
  obtain ⟨c, components, rfl⟩ := List.exists_cons_of_ne_nil hne
  have htoken : ∃ t tokens, tokensOf (c :: components) = t :: tokens := by
    cases c with
    | leaf t => exact ⟨t, _, rfl⟩
    | group opening contents closing => exact ⟨opening, _, rfl⟩
  obtain ⟨t, tokens, htokens⟩ := htoken
  rw [htokens] at h ⊢
  exact List.append_ne_nil_of_left_ne_nil
    (List.append_ne_nil_of_left_ne_nil h.1.text_ne_nil _) _

/-- Every part of a row stands in front of what follows it. -/
theorem StandsBefore.of_append {closer : Option Bracket} {rest : List Char} {a b : List Component}
    (h : StandsBefore closer rest (a ++ b)) :
    StandsBefore closer (Token.textOf (tokensOf b) ++ rest) a ∧ StandsBefore closer rest b := by
  obtain ⟨hopen, hread, hgrouped⟩ := h
  rw [tokensOf_append] at hread
  obtain ⟨hreada, hreadb⟩ := Token.readBack_append.mp hread
  by_cases hb : b = []
  · subst hb
    rw [List.append_nil] at hopen hgrouped
    exact ⟨⟨hopen, hreada, hgrouped⟩, trivial, trivial, fun _ => trivial⟩
  · obtain ⟨hgroupeda, hopenb⟩ := (areOpen_append hb).mp hopen
    exact ⟨⟨hgroupeda.areOpen, hreada, fun _ => hgroupeda⟩, hopenb, hreadb,
      fun hrest => (areGrouped_append.mp (hgrouped hrest)).2⟩

/-- The contents of a group stand in front of its closing bracket, if it has one. -/
theorem StandsBefore.contents {closer : Option Bracket} {rest : List Char} {opening : Token}
    {contents : List Component} {closing : Option Token}
    (h : StandsBefore closer rest [.group opening contents closing]) :
    ∃ bracket, opening.kind.closer? = some bracket ∧
      StandsBefore (some bracket) (Token.textOf closing.toList ++ rest) contents ∧
      ∀ t ∈ closing, t.kind = .closing bracket ∧ AreGrouped (some bracket) contents := by
  obtain ⟨hopen, hread, hgrouped⟩ := h
  rw [tokensOf, tokensOf, List.append_nil, tokens] at hread
  obtain ⟨hcontents, -⟩ := Token.readBack_append.mp hread.2
  rcases areOpen_singleton.mp hopen with ⟨bracket, hbracket, hgroup, t, rfl, hkind⟩ | hcut
  · refine ⟨bracket, hbracket, ⟨hgroup.areOpen, hcontents, fun _ => hgroup⟩, ?_⟩
    rintro _ ⟨⟩
    exact ⟨hkind, hgroup⟩
  · cases closing with
    | some t => exact hcut.elim
    | none =>
        obtain ⟨bracket, hbracket, hgroup⟩ := hcut
        refine ⟨bracket, hbracket, ⟨hgroup, hcontents, fun hrest => ?_⟩, nofun⟩
        obtain ⟨⟨_, _, _, t, hclosing, _⟩, -⟩ := hgrouped hrest
        cases hclosing

instance : Hereditary Lexed where
  of_infix := by
    rintro components part ⟨⟨closer, rest, hstands⟩, hsound, hplain⟩ ⟨front, back, rfl⟩
    have hpart := hstands.of_append.1.of_append.2
    exact ⟨⟨closer, _, hpart⟩, Hereditary.of_infix hsound ⟨front, back, rfl⟩,
      Hereditary.of_infix hplain ⟨front, back, rfl⟩⟩
  contents := by
    rintro opening contents closing ⟨⟨closer, rest, hstands⟩, hsound, hplain⟩
    obtain ⟨bracket, -, hcontents, -⟩ := hstands.contents
    exact ⟨⟨_, _, hcontents⟩, Hereditary.contents hsound, Hereditary.contents hplain⟩

end Component

/-- The tokens of a source are plain. -/
theorem Source.isPlain_of_mem {text : String} {source : Source}
    (h : Source.ofString text = .ok source) : ∀ t ∈ source.tokens, t.IsPlain := by
  obtain ⟨hdigits, rfl⟩ := Source.ofString_eq_ok_iff.mp h
  intro t ht
  refine ⟨(normal_normalize text.toList).subset fun c hc => ?_, hdigits t ht⟩
  rw [← flatMap_text_tokensFrom .first (normalize text.toList)]
  exact List.mem_flatMap.mpr ⟨t, ht, hc⟩

/-- The components of a source stand in it. -/
theorem Source.lexed_ofTokens {text : String} {source : Source}
    (h : Source.ofString text = .ok source) :
    Component.Lexed (Component.ofTokens source.tokens) where
  stands := by
    refine ⟨none, [], Component.areOpen_ofTokens _, ?_, fun h => absurd rfl h⟩
    obtain ⟨-, rfl⟩ := Source.ofString_eq_ok_iff.mp h
    rw [Component.tokensOf_ofTokens]
    exact Token.readBack_tokensFrom _ _
  sound := Component.allTokens_ofTokens (Source.sound_of_mem h)
  plain := Component.allTokens_ofTokens (Source.isPlain_of_mem h)

/-- The components are those of a source, a part of a row of them, or the contents of a group among
them: what a reader of the source can come to stand in front of. -/
inductive Source.Holds (source : Source) : List Component → Prop where
  | all : source.Holds (Component.ofTokens source.tokens)
  | part {components part : List Component} (h : source.Holds components)
      (hpart : part <:+: components) : source.Holds part
  | inside {opening : Token} {contents : List Component} {closing : Option Token}
      {components : List Component} (h : source.Holds components)
      (hgroup : .group opening contents closing ∈ components) : source.Holds contents

/-- What a source holds stands in it. -/
theorem Source.Holds.lexed {text : String} {source : Source} {components : List Component}
    (h : source.Holds components) (hsource : Source.ofString text = .ok source) :
    Component.Lexed components := by
  induction h with
  | all => exact Source.lexed_ofTokens hsource
  | part _ hpart ih => exact Hereditary.of_infix ih hpart
  | inside _ hgroup ih => exact Hereditary.contents (Hereditary.of_mem ih hgroup)

end Css
