import Css.Proofs.Parser.Significant
import Css.Proofs.Token.Alone

/-!
# Where cursors end

The components of a source lie one after another, and what stands between the brackets of a group
fills the place between them: `Component.AreLaid` says so at every depth. A group that the end of
the text cuts off reaches up to that end. The cursors that confined parsers are handed, in groups
and in front of delimiters, nested in any way, keep this, so each of them ends at the bracket, the
delimiter or the end of the source that ended it, `Cursor.Reached.contiguous_up_to_boundary`.
-/

namespace Css

/-- A closing bracket takes one character. -/
theorem Token.ReadsBefore.length_closing {t : Token} {rest : List Char} (h : t.ReadsBefore rest)
    {bracket : Bracket} (hkind : t.kind = .closing bracket) : t.text.length = 1 := by
  obtain ⟨c, tail, htext, hscan⟩ := h
  have hscanned := scanned_iff.mpr hscan
  generalize t.kind = kind at hscanned hkind
  generalize hs : tail ++ rest = s at hscanned
  cases hscanned with
  | punctuation =>
      obtain rfl : tail = [] := by simpa using hs
      rw [htext]
      rfl
  | string value ending after => cases ending <;> cases hkind
  | url name body address ending => cases ending <;> cases hkind
  | _ => cases hkind

/-- The tokens lie one after another from the given place on, and closing brackets among them take
one character. -/
structure RunsFrom (start : Position) (tokens : List Token) : Prop where
  contiguous : Contiguous start tokens
  length_closing : ∀ t ∈ tokens, ∀ bracket, t.kind = .closing bracket → t.text.length = 1

/-- Tokens run on behind the text of the tokens in front of them. -/
theorem runsFrom_append {start : Position} {front back : List Token} :
    RunsFrom start (front ++ back) ↔
      RunsFrom start front ∧ RunsFrom (start.advance (Token.textOf front)) back := by
  constructor
  · rintro ⟨hcontiguous, hclosing⟩
    obtain ⟨hfront, hback⟩ := contiguous_append.mp hcontiguous
    exact ⟨⟨hfront, fun t ht => hclosing t (List.mem_append_left back ht)⟩,
      ⟨hback, fun t ht => hclosing t (List.mem_append_right front ht)⟩⟩
  · rintro ⟨hfront, hback⟩
    refine ⟨contiguous_append.mpr ⟨hfront.contiguous, hback.contiguous⟩, fun t ht => ?_⟩
    exact (List.mem_append.mp ht).elim (hfront.length_closing t) (hback.length_closing t)

/-- The tokens of a source run from the first place to the end of the source. -/
theorem Source.runsFrom_tokens {text : String} {source : Source}
    (h : Source.ofString text = .ok source) :
    RunsFrom .first source.tokens ∧
      Position.first.advance (Token.textOf source.tokens) = source.stop := by
  have hclosing : ∀ t ∈ source.tokens, ∀ bracket, t.kind = .closing bracket →
      t.text.length = 1 := by
    intro t ht bracket hkind
    obtain ⟨rest, hread⟩ := exists_readsBefore_of_mem h ht
    exact hread.length_closing hkind
  obtain ⟨-, rfl⟩ := ofString_eq_ok_iff.mp h
  exact ⟨⟨contiguous_tokensFrom .first _, hclosing⟩,
    congrArg Position.first.advance (flatMap_text_tokensFrom ..)⟩

namespace Component

mutual

/-- In the group, what stands between the brackets fills the place between them, at every depth. A
group that is cut off reaches up to the final place. A closing bracket takes one character. -/
def IsLaid (final : Position) : Component → Prop
  | leaf _ => True
  | group opening contents closing =>
    AreLaid final contents opening.stop (closing.elim final Token.start) ∧
      ∀ t ∈ closing, t.text.length = 1

/-- The components fill the place between the two given ones. -/
def AreLaid (final : Position) : List Component → Position → Position → Prop
  | [], start, stop => start = stop
  | c :: rest, start, stop => c.start = start ∧ c.IsLaid final ∧ AreLaid final rest c.stop stop

end

variable {final start stop : Position} {a b components : List Component}

/-- Two rows of components fill a place if the second one goes on where the first one ends. -/
theorem areLaid_append : AreLaid final (a ++ b) start stop ↔
    ∃ mid, AreLaid final a start mid ∧ AreLaid final b mid stop := by
  induction a generalizing start with
  | nil => simp [AreLaid]
  | cons c a ih => simp [AreLaid, ih, and_assoc]

/-- Components stop where the place ends that they fill. -/
theorem AreLaid.stopOf_eq (h : AreLaid final components start stop) :
    stopOf start components = stop := by
  induction components generalizing start with
  | nil => exact h
  | cons c rest ih => exact ih h.2.2

/-- What fills a place starts where the place does, or the place is empty. -/
theorem AreLaid.location_eq (h : AreLaid final components start stop) :
    (Cursor.mk components stop).location = start := by
  cases components with
  | nil => exact h.symm
  | cons c rest => exact h.1

/-- Each of the components is filled. -/
theorem AreLaid.isLaid (h : AreLaid final components start stop) {c : Component}
    (hc : c ∈ components) : c.IsLaid final := by
  obtain ⟨front, back, rfl⟩ := List.append_of_mem hc
  obtain ⟨mid, -, hback⟩ := areLaid_append.mp h
  exact hback.2.1

/-- Components that fill a place lie one after another. -/
theorem AreLaid.isChain (h : AreLaid final components start stop) :
    components.IsChain fun component next => component.stop = next.start := by
  induction components generalizing start with
  | nil => exact .nil
  | cons c rest ih =>
      cases rest with
      | nil => exact .singleton c
      | cons next rest => exact .cons_cons h.2.2.1.symm (ih h.2.2)

section

variable {opening : Token} {contents : List Component} {closing : Option Token}

/-- The tokens of a group run from its opening token through its contents to its closing bracket. -/
theorem runsFrom_group (h : RunsFrom start (group opening contents closing).tokens) :
    opening.start = start ∧ RunsFrom opening.stop (tokensOf contents) ∧
      RunsFrom (opening.stop.advance (Token.textOf (tokensOf contents))) closing.toList := by
  rw [tokens, ← List.singleton_append] at h
  obtain ⟨hopening, hinside⟩ := runsFrom_append.mp h
  obtain ⟨rfl, -⟩ := hopening.contiguous
  have hstop : opening.start.advance (Token.textOf [opening]) = opening.stop := by
    simp [Token.textOf, Token.stop]
  rw [hstop] at hinside
  exact ⟨rfl, runsFrom_append.mp hinside⟩

/-- A group takes the text of its contents and its closing bracket behind its opening token. -/
theorem advance_group :
    opening.start.advance (Token.textOf (group opening contents closing).tokens) =
      (opening.stop.advance (Token.textOf (tokensOf contents))).advance
        (Token.textOf closing.toList) := by
  simp [tokens, Token.textOf, Token.stop, Position.advance_append]

end

mutual

/-- The tokens of a component make it start and stop where they do. -/
theorem isLaid_of_runsFrom (c : Component) {closer : Option Bracket} {start : Position}
    (hrun : RunsFrom start c.tokens)
    (hopen : c.IsGrouped closer ∨ c.IsCutOff ∧ start.advance (Token.textOf c.tokens) = final) :
    c.start = start ∧ c.IsLaid final ∧ c.stop = start.advance (Token.textOf c.tokens) := by
  cases c with
  | leaf t =>
      obtain ⟨rfl, -⟩ := hrun.contiguous
      exact ⟨rfl, trivial, by simp [tokens, Token.textOf, stop, Token.stop]⟩
  | group opening contents closing =>
      obtain ⟨rfl, hcontents, hclosing⟩ := runsFrom_group hrun
      rw [advance_group] at hopen ⊢
      refine ⟨rfl, ?_⟩
      rcases hopen with ⟨bracket, -, hgrouped, t, rfl, hkind⟩ | ⟨hcut, hfinal⟩
      · have hlaid : AreLaid final contents _ _ :=
          areLaid_of_runsFrom contents hcontents (.inl hgrouped)
        have hstart : t.start = _ := hclosing.contiguous.1
        have hlength := hclosing.length_closing t (List.mem_singleton_self t) bracket hkind
        rw [← hstart] at hlaid ⊢
        exact ⟨⟨hlaid, by simpa using hlength⟩, by simp [stop, Token.textOf, Token.stop]⟩
      · cases closing with
        | some t => exact hcut.elim
        | none =>
            obtain ⟨bracket, -, hgrouped⟩ := hcut
            replace hfinal : opening.stop.advance (Token.textOf (tokensOf contents)) = final :=
              hfinal
            have hlaid := areLaid_of_runsFrom contents hcontents (.inr ⟨hgrouped, hfinal⟩)
            exact ⟨⟨hfinal ▸ hlaid, nofun⟩, hlaid.stopOf_eq⟩

/-- The tokens of components make them fill the place of the tokens. -/
theorem areLaid_of_runsFrom (components : List Component) {closer : Option Bracket}
    {start : Position} (hrun : RunsFrom start (tokensOf components))
    (hopen : AreGrouped closer components ∨
      AreOpen closer components ∧ start.advance (Token.textOf (tokensOf components)) = final) :
    AreLaid final components start (start.advance (Token.textOf (tokensOf components))) := by
  cases components with
  | nil => rfl
  | cons c rest =>
      rw [tokensOf] at hrun hopen ⊢
      obtain ⟨hfirst, hrest⟩ := runsFrom_append.mp hrun
      rw [Token.textOf_append, Position.advance_append] at hopen ⊢
      -- behind a component that is cut off nothing stands
      have hopen : (c.IsGrouped closer ∨
            c.IsCutOff ∧ start.advance (Token.textOf c.tokens) = final) ∧
          (AreGrouped closer rest ∨ AreOpen closer rest ∧ (start.advance
            (Token.textOf c.tokens)).advance (Token.textOf (tokensOf rest)) = final) := by
        rcases hopen with ⟨hc, hrest⟩ | ⟨⟨hc, hrest⟩ | ⟨hc, rfl⟩, hfinal⟩
        · exact ⟨.inl hc, .inl hrest⟩
        · exact ⟨.inl hc, .inr ⟨hrest, hfinal⟩⟩
        · exact ⟨.inr ⟨hc, hfinal⟩, .inl trivial⟩
      obtain ⟨hstart, hlaid, hstop⟩ := isLaid_of_runsFrom c hfirst hopen.1
      refine ⟨hstart, hlaid, ?_⟩
      rw [hstop]
      exact areLaid_of_runsFrom rest hrest hopen.2

end

end Component

open Css.Parser

/-- What is left fills a place that reaches up to where the cursor ends. -/
def Cursor.IsLaid (final : Position) (c : Cursor) : Prop :=
  ∃ start, Component.AreLaid final c.rest start c.stop

namespace Cursor.IsLaid

variable {final : Position} {c after : Cursor}

/-- The components of a source fill the place up to its end. -/
theorem of_ofSource {text : String} {source : Source} (h : Source.ofString text = .ok source) :
    (Cursor.ofSource source).IsLaid source.stop := by
  obtain ⟨hrun, hstop⟩ := Source.runsFrom_tokens h
  rw [← Component.tokensOf_ofTokens source.tokens] at hrun hstop
  have hlaid := Component.areLaid_of_runsFrom _ hrun
    (.inr ⟨Component.areOpen_ofTokens source.tokens, hstop⟩)
  rw [hstop] at hlaid
  exact ⟨.first, hlaid⟩

/-- Further on, what is left fills the rest of the place. -/
theorem of_leads (h : c.IsLaid final) (hleads : c.Leads after) : after.IsLaid final := by
  obtain ⟨start, hlaid⟩ := h
  obtain ⟨front, hfront⟩ := hleads.suffix
  rw [← hfront] at hlaid
  obtain ⟨mid, -, hback⟩ := Component.areLaid_append.mp hlaid
  exact ⟨mid, by rwa [hleads.stop]⟩

/-- What was read fills the place up to where the cursor stands then. -/
theorem before (h : c.IsLaid final) (hleads : c.Leads after) :
    (Cursor.mk (c.read after) after.location).IsLaid final := by
  obtain ⟨start, hlaid⟩ := h
  rw [← hleads.read_append] at hlaid
  obtain ⟨mid, hfront, hback⟩ := Component.areLaid_append.mp hlaid
  refine ⟨start, ?_⟩
  rw [← hleads.stop] at hback
  rwa [show after.location = mid from hback.location_eq]

section

variable {opening : Token} {contents : List Component} {closing : Option Token}

/-- The contents of a group end at its closing bracket, or at the final place. -/
theorem contentsStop_eq (h : c.IsLaid final)
    (hgroup : .group opening contents closing ∈ c.rest) :
    Component.contentsStop opening contents closing = closing.elim final Token.start := by
  obtain ⟨start, hlaid⟩ := h
  cases closing with
  | some t => rfl
  | none => exact (hlaid.isLaid hgroup).1.stopOf_eq

/-- The contents of a group fill the place between its brackets. -/
theorem inside (h : c.IsLaid final) (hgroup : .group opening contents closing ∈ c.rest) :
    (Cursor.mk contents (Component.contentsStop opening contents closing)).IsLaid final := by
  rw [h.contentsStop_eq hgroup]
  obtain ⟨start, hlaid⟩ := h
  exact ⟨opening.stop, (hlaid.isLaid hgroup).1⟩

/-- The contents of a group end one character in front of its end if it is closed, and at its end if
it is not. -/
theorem offset_contentsStop (h : c.IsLaid final)
    (hgroup : .group opening contents closing ∈ c.rest) :
    (Component.contentsStop opening contents closing).offset + closing.toList.length =
      (Component.group opening contents closing).stop.offset := by
  obtain ⟨start, hlaid⟩ := h
  cases closing with
  | none => rfl
  | some t =>
      have hlength := (hlaid.isLaid hgroup).2 t rfl
      rw [Component.stop, Token.offset_stop, hlength]
      rfl

end

end Cursor.IsLaid

/-- The components lie one after another, and the last of them ends where the cursor does. -/
structure Cursor.Contiguous (c : Cursor) : Prop where
  adjacent : c.rest.IsChain fun component next => component.stop = next.start
  last_stop : ∀ component ∈ c.rest.getLast?, component.stop = c.stop

/-- What fills a place up to the end of the cursor lies one after another up to there. -/
theorem Cursor.IsLaid.contiguous {final : Position} {c : Cursor} (h : c.IsLaid final) :
    c.Contiguous := by
  obtain ⟨start, hlaid⟩ := h
  refine ⟨hlaid.isChain, fun component hlast => ?_⟩
  obtain ⟨front, hfront⟩ := List.getLast?_eq_some_iff.mp hlast
  rw [hfront] at hlaid
  obtain ⟨mid, -, -, -, hstop⟩ := Component.areLaid_append.mp hlaid
  exact hstop

namespace Parser

variable {c after part : Cursor}

/-- Answers with what there is to read, and reads all of it. -/
def handed : Parser Cursor := fun c => .ok c ⟨[], c.stop⟩

/-- All of what there is to read is read. -/
theorem entirely_handed_eq_ok_iff : (∃ last, entirely handed c = .ok part last) ↔ part = c := by
  have hrun : entirely handed c = .ok c ⟨[], c.stop⟩ := rfl
  simp [hrun, eq_comm]

/-- A parser inside a group is handed its contents. -/
theorem inside_handed_eq_ok_iff {opening : Token} {contents : List Component}
    {closing : Option Token} :
    inside (.group opening contents closing) handed c = .ok part after ↔
      part = ⟨contents, Component.contentsStop opening contents closing⟩ ∧ after = c := by
  rw [inside, within_eq_ok_iff, entirely_handed_eq_ok_iff, and_comm]

/-- A parser in front of a delimiter is handed what stands in front of it. -/
theorem untilBefore_handed_eq_ok_iff {delimiters : List Char} :
    untilBefore delimiters handed c = .ok part after ↔
      part = ⟨c.read after, after.location⟩ ∧
        after = c.skip fun component => !isDelimiter delimiters component := by
  rw [untilBefore_eq_ok, entirely_handed_eq_ok_iff, and_comm]

/-- A parser up to a delimiter is handed what one in front of the delimiter is. -/
theorem untilBefore_of_untilAfter {α : Type} {p : Parser α} {delimiters : List Char} {a : α}
    (h : untilAfter delimiters p c = .ok a after) :
    ∃ mid, untilBefore delimiters p c = .ok a mid := by
  obtain ⟨b, mid, hbefore, hrest⟩ := bind_eq_ok.mp h
  cases hrest
  exact ⟨mid, hbefore⟩

end Parser

namespace Cursor

/-- What may end a cursor: the end of the source, the closing bracket of a group, or a delimiter. -/
inductive Boundary where
  | source
  | bracket (closing : Token)
  | delimiter (component : Component)

/-- The place where a boundary starts. -/
def Boundary.place (source : Source) : Boundary → Position
  | .source => source.stop
  | .bracket closing => closing.start
  | .delimiter component => component.start

/-- The cursors from which the parsers of a source read, with what ends them: the whole source, what
is left further on, and what parsers are handed in groups and in front of delimiters. A group that
is not closed ends with the source, and so does what no delimiter ends. -/
inductive Reached (source : Source) : Cursor → Boundary → Prop
  | source : Reached source (.ofSource source) .source
  | further {c after : Cursor} {boundary : Boundary} (h : Reached source c boundary)
      (hleads : c.Leads after) : Reached source after boundary
  | inside {c part after : Cursor} {boundary : Boundary} {opening : Token}
      {contents : List Component} {closing : Option Token} (h : Reached source c boundary)
      (hgroup : .group opening contents closing ∈ c.rest)
      (hrun : Parser.inside (.group opening contents closing) handed c = .ok part after) :
      Reached source part (closing.elim .source .bracket)
  | before {c part after : Cursor} {boundary : Boundary} {delimiters : List Char}
      (h : Reached source c boundary)
      (hrun : untilBefore delimiters handed c = .ok part after) :
      Reached source part ((c.rest.find? (isDelimiter delimiters)).elim boundary .delimiter)
  | upTo {c part after : Cursor} {boundary : Boundary} {delimiters : List Char}
      (h : Reached source c boundary)
      (hrun : untilAfter delimiters handed c = .ok part after) :
      Reached source part ((c.rest.find? (isDelimiter delimiters)).elim boundary .delimiter)

variable {source : Source} {c after part : Cursor} {boundary : Boundary}

/-- In front of a delimiter, a cursor stands at the first one, or at the end. -/
theorem location_skip (c : Cursor) (delimiters : List Char) :
    (c.skip fun component => !isDelimiter delimiters component).location =
      (c.rest.find? (isDelimiter delimiters)).elim c.stop Component.start := by
  rw [List.find?_eq_head?_dropWhile_not, location, skip]
  cases c.rest.dropWhile fun component => !isDelimiter delimiters component <;> rfl

/-- What a parser in front of a delimiter is handed ends at the delimiter, or where the cursor
does. -/
theorem IsLaid.untilBefore (h : c.IsLaid source.stop) (hstop : c.stop = boundary.place source)
    {delimiters : List Char} (hrun : untilBefore delimiters handed c = .ok part after) :
    part.IsLaid source.stop ∧ part.stop =
      ((c.rest.find? (isDelimiter delimiters)).elim boundary .delimiter).place source := by
  obtain ⟨rfl, rfl⟩ := untilBefore_handed_eq_ok_iff.mp hrun
  refine ⟨h.before (c.leads_skip _), ?_⟩
  rw [location_skip, hstop]
  cases c.rest.find? (isDelimiter delimiters) <;> rfl

/-- What is left for the parsers of a source fills a place up to its boundary. -/
theorem Reached.isLaid {text : String} (hsource : Source.ofString text = .ok source)
    (h : Reached source c boundary) : c.IsLaid source.stop ∧ c.stop = boundary.place source := by
  induction h with
  | source => exact ⟨.of_ofSource hsource, rfl⟩
  | further _ hleads ih => exact ⟨ih.1.of_leads hleads, hleads.stop.trans ih.2⟩
  | inside _ hgroup hrun ih =>
      obtain ⟨rfl, rfl⟩ := inside_handed_eq_ok_iff.mp hrun
      refine ⟨ih.1.inside hgroup, ?_⟩
      rename_i closing _
      rw [ih.1.contentsStop_eq hgroup]
      cases closing <;> rfl
  | before _ hrun ih => exact ih.1.untilBefore ih.2 hrun
  | upTo _ hrun ih =>
      obtain ⟨mid, hrun⟩ := untilBefore_of_untilAfter hrun
      exact ih.1.untilBefore ih.2 hrun

/-- In every cursor from which the parsers of a source read, the components lie one after another
and the last of them ends where the cursor does: at the bracket, the delimiter or the end of the
source that ended it. This is also where the end is found, and where the contents of a group end is
one character in front of its end if it is closed, and its end if it is not. -/
theorem Reached.contiguous_up_to_boundary {text : String}
    (hsource : Source.ofString text = .ok source) (h : Reached source c boundary) :
    c.Contiguous ∧ c.stop = boundary.place source ∧
      (c.rest = [] → c.location = boundary.place source) ∧
      (∀ skipped e after, nextAfter skipped c = .error e after →
        e = ⟨.endOfInput, boundary.place source⟩) ∧
      ∀ opening contents closing, .group opening contents closing ∈ c.rest →
        (Component.contentsStop opening contents closing).offset + closing.toList.length =
          (Component.group opening contents closing).stop.offset := by
  obtain ⟨hlaid, hstop⟩ := h.isLaid hsource
  refine ⟨hlaid.contiguous, hstop, fun hrest => ?_, fun skipped e after herror => ?_,
    fun _ _ _ hgroup => hlaid.offset_contentsStop hgroup⟩
  · rw [location, hrest, hstop]
  · rw [nextAfter_eq] at herror
    cases hrest : c.rest.dropWhile skipped with
    | nil =>
        rw [hrest] at herror
        cases herror
        rw [hstop]
    | cons component rest =>
        rw [hrest] at herror
        cases herror

/-- In `f(a,b`, which is cut off, the first argument of the function ends at the comma, and that is
where an end of the input is reported behind it. -/
theorem Reached.contiguous_up_to_boundary_argument : ∃ source opening first comma second,
    Source.ofString "f(a,b" = .ok source ∧
      (ofSource source).rest = [.group opening [first, comma, second] none] ∧
      Reached source ⟨[], comma.start⟩ (.delimiter comma) ∧
      ∀ e after, next ⟨[], comma.start⟩ = .error e after → e = ⟨.endOfInput, ⟨3, 1, 4⟩⟩ := by
  let opening : Token := ⟨.function "f", ['f', '('], ⟨0, 1, 1⟩⟩
  let first : Component := .leaf ⟨.ident "a", ['a'], ⟨2, 1, 3⟩⟩
  let comma : Component := .leaf ⟨.comma, [','], ⟨3, 1, 4⟩⟩
  let second : Component := .leaf ⟨.ident "b", ['b'], ⟨4, 1, 5⟩⟩
  let source : Source := ⟨opening :: [first, comma, second].map Component.token, ⟨5, 1, 6⟩⟩
  have hsource : Source.ofString "f(a,b" = .ok source := by cbv
  have hgroup : .group opening [first, comma, second] none ∈ (ofSource source).rest :=
    List.mem_singleton_self _
  have hinside : Parser.inside (.group opening [first, comma, second] none) handed
      (ofSource source) = .ok ⟨[first, comma, second], source.stop⟩ (ofSource source) := rfl
  have hbefore : untilBefore [','] handed ⟨[first, comma, second], source.stop⟩ =
      .ok ⟨[first], comma.start⟩ ⟨[comma, second], source.stop⟩ := rfl
  have hargument : Reached source ⟨[first], comma.start⟩ (.delimiter comma) :=
    (Reached.source.inside hgroup hinside).before hbefore
  have hend : Reached source ⟨[], comma.start⟩ (.delimiter comma) :=
    hargument.further ⟨List.nil_suffix, rfl⟩
  obtain ⟨-, -, -, herror, -⟩ := hend.contiguous_up_to_boundary hsource
  exact ⟨source, opening, first, comma, second, hsource, rfl, hend, herror Component.isFiller⟩

end Cursor

end Css
