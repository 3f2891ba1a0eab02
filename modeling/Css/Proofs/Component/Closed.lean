import Css.Proofs.Component.Lexed
import Css.Proofs.Component.Spells
import Css.Proofs.Token.CutOff

/-!
# Closing what the end of the text cut off

`Component.closedOf` closes strings, addresses, comments and groups that the end of a text cut off;
an address becomes the address function with a string. Its text is the text that is written of the
components, and its tokens are theirs with the last one closed and the missing brackets behind.
-/

namespace Css

namespace Component

/-- What is written for a token that the end of the text cut off. -/
def closedLeaf : Token.Kind → Component
  | .string value _ => leaf (.written (.string value true))
  | .url address _ => url address
  | .comment text _ => leaf (.written (.comment (text ++ "*/") true))
  | kind => leaf (.written kind)

mutual

/-- The component with everything closed that the end of the text cut off. -/
def closed : Component → Component
  | leaf t => if t.kind.isClosed then leaf t else closedLeaf t.kind
  | group opening contents closing => group opening (closedOf contents)
      (closing.or (opening.kind.closer?.map fun bracket => .written (.closing bracket)))

/-- The components with everything closed that the end of the text cut off. -/
def closedOf : List Component → List Component
  | [] => []
  | c :: rest => c.closed :: closedOf rest

end

mutual

/-- The component with nothing but what its tokens say. -/
def said : Component → Component
  | leaf t => leaf ⟨t.kind, [], .first⟩
  | group opening contents closing =>
    group ⟨opening.kind, [], .first⟩ (saidOf contents) (closing.map fun t => ⟨t.kind, [], .first⟩)

/-- The components with nothing but what their tokens say. -/
def saidOf : List Component → List Component
  | [] => []
  | c :: rest => c.said :: saidOf rest

end

/-- Components are closed one by one. -/
theorem closedOf_append (a b : List Component) : closedOf (a ++ b) = closedOf a ++ closedOf b := by
  induction a with
  | nil => rfl
  | cons c a ih => rw [List.cons_append, closedOf, ih, closedOf, List.cons_append]

/-- Components say what they say one by one. -/
theorem saidOf_append (a b : List Component) : saidOf (a ++ b) = saidOf a ++ saidOf b := by
  induction a with
  | nil => rfl
  | cons c a ih => rw [List.cons_append, saidOf, ih, saidOf, List.cons_append]

mutual

/-- What a component says does not depend on its place. -/
theorem said_bare (c : Component) : c.bare.said = c.said := by
  cases c with
  | leaf t => rfl
  | group opening contents closing =>
      rw [bare, said, said, saidOf_bareOf contents]
      cases closing <;> rfl

/-- What components say does not depend on their places. -/
theorem saidOf_bareOf (components : List Component) :
    saidOf (bareOf components) = saidOf components := by
  cases components with
  | nil => rfl
  | cons c rest => rw [bareOf, saidOf, saidOf, said_bare c, saidOf_bareOf rest]

end

mutual

/-- The tokens of what a component says say what its tokens say. -/
theorem kind_tokens_said (c : Component) :
    c.said.tokens.map Token.kind = c.tokens.map Token.kind := by
  cases c with
  | leaf t => rfl
  | group opening contents closing =>
      have hcontents := kind_tokensOf_saidOf contents
      cases closing <;> simp [said, tokens, hcontents]

/-- The tokens of what components say say what their tokens say. -/
theorem kind_tokensOf_saidOf (components : List Component) :
    (tokensOf (saidOf components)).map Token.kind = (tokensOf components).map Token.kind := by
  cases components with
  | nil => rfl
  | cons c rest =>
      rw [saidOf, tokensOf, List.map_append, kind_tokens_said c,
        kind_tokensOf_saidOf rest, tokensOf, List.map_append]

end

mutual

/-- A component is grouped if what it says is. -/
theorem isGrouped_said {c : Component} {closer : Option Bracket} :
    c.said.IsGrouped closer ↔ c.IsGrouped closer := by
  cases c with
  | leaf t => rfl
  | group opening contents closing =>
      have hcontents (closer : Option Bracket) :
          AreGrouped closer (saidOf contents) ↔ AreGrouped closer contents := areGrouped_saidOf
      cases closing <;> simp [said, IsGrouped, hcontents]

/-- Components are grouped if what they say is. -/
theorem areGrouped_saidOf {components : List Component} {closer : Option Bracket} :
    AreGrouped closer (saidOf components) ↔ AreGrouped closer components := by
  cases components with
  | nil => rfl
  | cons c rest => rw [saidOf, AreGrouped, AreGrouped, isGrouped_said, areGrouped_saidOf]

end

/-- The written text of two rows of components is their texts one after the other. -/
theorem closedTextOf_append (a b : List Component) :
    closedTextOf (a ++ b) = closedTextOf a ++ closedTextOf b := by
  induction a with
  | nil => rfl
  | cons c a ih => rw [List.cons_append, closedTextOf, ih, closedTextOf, List.append_assoc]

/-- A token that the end of the text cut off is written as what closes it. -/
theorem textOf_closedLeaf {kind : Token.Kind} (h : kind.isClosed = false) :
    Token.textOf (closedLeaf kind).tokens = kind.css.toList := by
  cases kind with
  | string value closed =>
      obtain rfl : closed = false := h
      exact List.append_nil _
  | url address closed =>
      obtain rfl : closed = false := h
      simp [closedLeaf, url, tokens, tokensOf, Token.textOf, Token.written, Token.Kind.css,
        Token.Kind.raw, Bracket.closer, identifierText]
      rfl
  | comment text closed =>
      obtain rfl : closed = false := h
      exact List.append_nil _
  | _ => cases h

/-- A start of a name is neither white space nor a quotation mark. -/
theorem ne_of_startsName_cons {c : Char} {rest : List Char} (h : startsName (c :: rest)) :
    isSpace c = false ∧ isQuote c = false := by
  refine ⟨?_, ?_⟩
  · simp only [isSpace, decide_eq_false_iff_not]
    rintro (rfl | rfl | rfl) <;> exact ne_of_startsName h rfl (by decide) (by decide) rfl
  · simp only [isQuote, decide_eq_false_iff_not]
    rintro (rfl | rfl) <;> exact ne_of_startsName h rfl (by decide) (by decide) rfl

/-- A written string starts with its quotation mark. -/
theorem textOf_written_string (value : String) (tokens : List Token) :
    Token.textOf (.written (.string value true) :: tokens) =
      '"' :: (value.toList.flatMap stringCharText ++ '"' :: Token.textOf tokens) := by
  simp [Token.textOf, Token.written, Token.Kind.css, stringText]

/-- What is written for a token that the end of the text cut off is read back. -/
theorem readBack_closedLeaf {kind : Token.Kind} {text : List Char} (h : Token.CutOff kind text)
    (hsound : kind.Sound) (other : List Char) :
    Token.ReadBack (closedLeaf kind).tokens other := by
  cases h with
  | string => exact ⟨Token.readsBefore_string hsound other, trivial⟩
  | url =>
      refine ⟨?_, Token.readsBefore_string hsound _,
        Token.readsBefore_closing .round other, trivial⟩
      simp only [tokensOf, tokens, List.append_nil, List.cons_append, List.nil_append,
        Option.toList_some, textOf_written_string]
      exact Token.readsBefore_url _
  | comment hread => exact ⟨Token.readsBefore_comment hread other, trivial⟩

/-- What is written for a token that the end of the text cut off is plain and closed. -/
theorem isPlain_closedLeaf {kind : Token.Kind} {text : List Char} (h : Token.CutOff kind text)
    (hnormal : Normal text) : ∀ t ∈ (closedLeaf kind).tokens, t.IsPlain ∧ t.kind.isClosed := by
  cases h with
  | string =>
      rintro t ht
      obtain rfl := List.mem_singleton.mp ht
      exact ⟨Token.isPlain_string _, rfl⟩
  | url =>
      intro t ht
      simp only [closedLeaf, url, tokens, tokensOf, List.append_nil, Option.toList_some,
        List.cons_append, List.nil_append, List.mem_cons, List.not_mem_nil, or_false] at ht
      rcases ht with rfl | rfl | rfl
      · exact ⟨Token.isPlain_url, rfl⟩
      · exact ⟨Token.isPlain_string _, rfl⟩
      · exact ⟨Token.isPlain_closing .round, rfl⟩
  | @comment body hread =>
      intro t ht
      obtain rfl := List.mem_singleton.mp ht
      have hmark : Normal ['*', '/'] := normal_of_isControl fun c hc => by
        rcases List.mem_pair.mp hc with rfl | rfl <;> rfl
      refine ⟨⟨?_, nofun⟩, rfl⟩
      simpa [Token.written, Token.Kind.css] using normal_append.mpr ⟨hnormal, hmark⟩

/-- What is written for a token that the end of the text cut off may stand in its place. -/
theorem follows_closedLeaf {kind : Token.Kind} {text : List Char} (h : Token.CutOff kind text)
    (other : List Char) : Follows text (Token.textOf (closedLeaf kind).tokens ++ other) ∧
      Resembles text (Token.textOf (closedLeaf kind).tokens ++ other) ∧
      GoOnAlike text (Token.textOf (closedLeaf kind).tokens ++ other) := by
  cases h with
  | @string value quote text hquote =>
      have hline : quote ≠ '\n' := by
        rintro rfl
        cases hquote
      rw [closedLeaf, tokens, textOf_written_string, List.cons_append]
      exact ⟨.ending (.cons (by decide) (absurd · (by decide))), resembles_quote hquote rfl _ _,
        .cons (iff_of_false hline (by decide))⟩
  | @url address text hname =>
      cases text with
      | nil => cases hname
      | cons c rest =>
          obtain ⟨hspace, hquote⟩ := ne_of_startsName_cons hname
          have hline : c ≠ '\n' := by
            rintro rfl
            cases hspace
          have hurl : Token.textOf (closedLeaf (.url address false)).tokens ++ other =
              'u' :: ('r' :: 'l' :: '(' :: (stringText address).toList ++ ')' :: other) := by
            simp [closedLeaf, url, tokens, tokensOf, Token.textOf, Token.written, Token.Kind.css,
              Token.Kind.raw, Bracket.closer, identifierText]
            rfl
          rw [hurl]
          exact ⟨.name hname, .of_head hspace hquote _, .cons (iff_of_false hline (by decide))⟩
  | @comment body hread =>
      have hcomment : Token.textOf (closedLeaf
          (.comment (String.ofList ('/' :: '*' :: body)) false)).tokens ++ other =
          '/' :: ('*' :: body ++ '*' :: '/' :: other) := by
        simp [closedLeaf, tokens, Token.textOf, Token.written, Token.Kind.css]
      rw [hcomment]
      exact ⟨.ending (.cons (by decide) (absurd · (by decide))), resembles_cons rfl _ _,
        .cons Iff.rfl⟩

mutual

/-- The written text of a component is the text of the closed one. -/
theorem textOf_tokens_closed (c : Component) : Token.textOf c.closed.tokens = c.closedText := by
  cases c with
  | leaf t =>
      rw [closed, closedText]
      split
      · exact List.append_nil _
      · rename_i hclosed
        exact textOf_closedLeaf (by simpa using hclosed)
  | group opening contents closing =>
      have hcontents := textOf_tokensOf_closedOf contents
      cases closing with
      | some t => simp [closed, closedText, tokens, Token.textOf, ← hcontents]
      | none =>
          cases hcloser : opening.kind.closer? with
          | none => simp [closed, closedText, tokens, Token.textOf, ← hcontents, hcloser]
          | some bracket =>
              simp [closed, closedText, tokens, Token.textOf, ← hcontents, hcloser, Token.written,
                Token.Kind.css, Token.Kind.raw]

/-- The written text of components is the text of the closed ones. -/
theorem textOf_tokensOf_closedOf (components : List Component) :
    Token.textOf (tokensOf (closedOf components)) = closedTextOf components := by
  cases components with
  | nil => rfl
  | cons c rest =>
      rw [closedOf, tokensOf, Token.textOf_append, textOf_tokens_closed c,
        textOf_tokensOf_closedOf rest, closedTextOf]

end

/-- The tokens of a row of components, and those of the closed ones: either nothing but brackets is
missing at the end, or the last token is cut off as well. -/
inductive Closes : List Token → List Token → List Token → Prop where
  | brackets {tokens closers : List Token} (h : ∀ t ∈ tokens, t.kind.isClosed) :
      Closes tokens closers (tokens ++ closers)
  | token {front closers : List Token} {t : Token} (hfront : ∀ u ∈ front, u.kind.isClosed)
      (ht : t.kind.isClosed = false) :
      Closes (front ++ [t]) closers (front ++ (closedLeaf t.kind).tokens ++ closers)

/-- The closed tokens are closed ones that were there, what is written for the last one if it was
cut off, and the brackets behind them. -/
theorem Closes.mem {tokens closers closed : List Token} (h : Closes tokens closers closed)
    {t : Token} (ht : t ∈ closed) : t ∈ tokens ∧ t.kind.isClosed ∨ t ∈ closers ∨
      ∃ u ∈ tokens, u.kind.isClosed = false ∧ t ∈ (closedLeaf u.kind).tokens := by
  cases h with
  | brackets h =>
      exact (List.mem_append.mp ht).imp (fun ht => ⟨ht, h t ht⟩) .inl
  | @token front closers u hfront hu =>
      simp only [List.mem_append, List.mem_singleton] at ht ⊢
      rcases ht with (ht | ht) | ht
      · exact .inl ⟨.inl ht, hfront t ht⟩
      · exact .inr (.inr ⟨u, .inr rfl, hu, ht⟩)
      · exact .inr (.inl ht)

/-- Closed tokens in front stay as they are. -/
theorem Closes.append {front tokens closers closed : List Token}
    (hfront : ∀ t ∈ front, t.kind.isClosed) (h : Closes tokens closers closed) :
    Closes (front ++ tokens) closers (front ++ closed) := by
  cases h with
  | brackets h =>
      rw [← List.append_assoc]
      refine .brackets fun t ht => ?_
      rcases List.mem_append.mp ht with ht | ht
      · exact hfront t ht
      · exact h t ht
  | token hfront' ht =>
      rw [← List.append_assoc, ← List.append_assoc, ← List.append_assoc]
      refine .token (fun u hu => ?_) ht
      rcases List.mem_append.mp hu with hu | hu
      · exact hfront u hu
      · exact hfront' u hu

/-- One more bracket may be missing behind the others. -/
theorem Closes.close {tokens closers closed : List Token} (h : Closes tokens closers closed)
    (t : Token) : Closes tokens (closers ++ [t]) (closed ++ [t]) := by
  cases h with
  | brackets h =>
      rw [List.append_assoc]
      exact .brackets h
  | token hfront ht =>
      rw [List.append_assoc]
      exact .token hfront ht

/-- Tokens in front of a text are all closed. -/
theorem Closes.eq_of_ne_nil {tokens closers closed : List Token} (h : Closes tokens closers closed)
    {rest : List Char} (hread : Token.ReadBack tokens rest) (hrest : rest ≠ []) :
    closed = tokens ++ closers ∧ ∀ t ∈ tokens, t.kind.isClosed := by
  cases h with
  | brackets h => exact ⟨rfl, h⟩
  | token hfront ht => exact absurd ((Token.readBack_append.mp hread).2.1.eq_nil ht) hrest

/-- Closing brackets, as they are written. -/
def AreClosers (tokens : List Token) : Prop :=
  ∀ t ∈ tokens, ∃ bracket, t = .written (.closing bracket)

mutual

/-- In a component of a source, at most the brackets at its end are missing, and its last token may
be cut off. -/
theorem closes_tokens (c : Component) {closer : Option Bracket} {rest : List Char}
    (h : StandsBefore closer rest [c]) : ∃ closers, AreClosers closers ∧
      (c.IsGrouped closer → closers = []) ∧ Closes c.tokens closers c.closed.tokens := by
  cases c with
  | leaf t =>
      refine ⟨[], nofun, fun _ => rfl, ?_⟩
      rw [closed, tokens]
      split
      · exact .brackets (by simpa using ‹_›)
      · rename_i hclosed
        rw [Bool.not_eq_true] at hclosed
        have hcloses : Closes ([] ++ [t]) [] ([] ++ (closedLeaf t.kind).tokens ++ []) :=
          .token nofun hclosed
        simpa using hcloses
  | group opening contents closing =>
      obtain ⟨bracket, hbracket, hcontents, hclosing⟩ := h.contents
      obtain ⟨closers, hclosers, hnone, hcloses⟩ := closes_tokensOf contents hcontents
      have hopening : opening.kind.isClosed := by
        cases hkind : opening.kind <;> rw [hkind] at hbracket <;> first | rfl | cases hbracket
      cases closing with
      | some t =>
          obtain ⟨hkind, hgrouped⟩ := hclosing t rfl
          obtain rfl := hnone hgrouped
          have htext : Token.textOf [t] ++ rest ≠ [] := by
            have hread := h.readBack
            rw [tokensOf, tokensOf, List.append_nil, tokens] at hread
            have ht := (Token.readBack_append.mp hread.2).2.1.text_ne_nil
            simpa [Token.textOf] using fun h => absurd h ht
          obtain ⟨heq, hall⟩ := hcloses.eq_of_ne_nil hcontents.readBack htext
          have hclosed : ∀ u ∈ opening :: (tokensOf contents ++ [t]), u.kind.isClosed := by
            intro u hu
            simp only [List.mem_cons, List.mem_append, List.not_mem_nil, or_false] at hu
            rcases hu with rfl | hu | rfl
            · exact hopening
            · exact hall u hu
            · rw [hkind]
              rfl
          refine ⟨[], nofun, fun _ => rfl, ?_⟩
          rw [closed, tokens, tokens, heq, List.append_nil]
          simpa using (Closes.brackets hclosed : Closes _ [] _)
      | none =>
          refine ⟨closers ++ [.written (.closing bracket)], ?_, ?_, ?_⟩
          · intro t ht
            rcases List.mem_append.mp ht with ht | ht
            · exact hclosers t ht
            · exact ⟨bracket, List.mem_singleton.mp ht⟩
          · rintro ⟨_, _, _, _, hclosing, _⟩
            cases hclosing
          · have hfront := (hcloses.append (show ∀ t ∈ [opening], _ by simpa using hopening)).close
              (.written (.closing bracket))
            simpa [closed, tokens, hbracket] using hfront

/-- In components of a source, at most the brackets at their end are missing, and their last token
may be cut off. -/
theorem closes_tokensOf (components : List Component) {closer : Option Bracket} {rest : List Char}
    (h : StandsBefore closer rest components) : ∃ closers, AreClosers closers ∧
      (AreGrouped closer components → closers = []) ∧
      Closes (tokensOf components) closers (tokensOf (closedOf components)) := by
  cases components with
  | nil =>
      refine ⟨[], nofun, fun _ => rfl, ?_⟩
      exact (.brackets nofun : Closes [] [] ([] ++ []))
  | cons c components =>
      obtain ⟨hc, hrest⟩ := StandsBefore.of_append (a := [c]) h
      obtain ⟨closers, hclosers, hnone, hcloses⟩ := closes_tokens c hc
      obtain ⟨closers', hclosers', hnone', hcloses'⟩ := closes_tokensOf components hrest
      cases components with
      | nil =>
          refine ⟨closers, hclosers, fun hgrouped => hnone hgrouped.1, ?_⟩
          simpa [tokensOf, closedOf] using hcloses
      | cons d components =>
          have hne := textOf_tokensOf_ne_nil hrest.readBack (List.cons_ne_nil d components)
          obtain rfl := hnone (hc.grouped hne).1
          have hread := hc.readBack
          rw [tokensOf, tokensOf, List.append_nil] at hread
          obtain ⟨heq, hall⟩ := hcloses.eq_of_ne_nil hread hne
          refine ⟨closers', hclosers', fun hgrouped => hnone' hgrouped.2, ?_⟩
          show Closes (c.tokens ++ tokensOf (d :: components)) closers'
            (c.closed.tokens ++ tokensOf (closedOf (d :: components)))
          rw [heq, List.append_nil]
          exact hcloses'.append hall

end

/-- What is written for a token that the end of the text cut off is grouped. -/
theorem isGrouped_closedLeaf {kind : Token.Kind} (h : kind.isClosed = false)
    (closer : Option Bracket) : (closedLeaf kind).IsGrouped closer := by
  cases kind with
  | string | comment => exact ⟨rfl, nofun⟩
  | url => exact ⟨.round, rfl, ⟨⟨rfl, nofun⟩, trivial⟩, _, rfl, rfl⟩
  | _ => cases h

mutual

/-- A component without tokens that no value may hold is grouped once it is closed. -/
theorem isGrouped_closed (c : Component) {closer : Option Bracket}
    (h : c.IsGrouped closer ∨ c.IsCutOff) (herror : c.errorToken? = none)
    (closer' : Option Bracket) : c.closed.IsGrouped closer' := by
  cases c with
  | leaf t =>
      have hcloser : t.kind.closer? = none := (h.resolve_right id).1
      have hclosing (bracket : Bracket) : t.kind ≠ .closing bracket := by
        intro hkind
        simp [errorToken?, hkind, Token.Kind.isError] at herror
      rw [closed]
      split
      · exact ⟨hcloser, fun bracket _ => hclosing bracket⟩
      · rename_i hclosed
        exact isGrouped_closedLeaf (Bool.eq_false_iff.mpr hclosed) closer'
  | group opening contents closing =>
      rcases h with ⟨bracket, hbracket, hcontents, t, rfl, hkind⟩ | hcut
      · exact ⟨bracket, hbracket, areGrouped_closedOf contents hcontents.areOpen herror _,
          t, rfl, hkind⟩
      · cases closing with
        | some t => exact hcut.elim
        | none =>
            obtain ⟨bracket, hbracket, hcontents⟩ := hcut
            refine ⟨bracket, hbracket, areGrouped_closedOf contents hcontents herror _,
              .written (.closing bracket), ?_, rfl⟩
            rw [hbracket]
            rfl

/-- Components without tokens that no value may hold are grouped once they are closed. -/
theorem areGrouped_closedOf (components : List Component) {closer : Option Bracket}
    (h : AreOpen closer components) (herror : errorTokenOf? components = none)
    (closer' : Option Bracket) : AreGrouped closer' (closedOf components) := by
  cases components with
  | nil => trivial
  | cons c rest =>
      rw [errorTokenOf?, Option.or_eq_none_iff] at herror
      rcases h with ⟨hc, hrest⟩ | ⟨hc, rfl⟩
      · exact ⟨isGrouped_closed c (.inl hc) herror.1 closer',
          areGrouped_closedOf rest hrest herror.2 closer'⟩
      · exact ⟨isGrouped_closed c (.inr hc : c.IsGrouped closer ∨ _) herror.1 closer', trivial⟩

end

end Component

end Css
