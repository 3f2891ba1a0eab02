import Css.Proofs.Component.Closed
import Css.Proofs.Parser.Reads

/-!
# Captured text that is read back

Captured text is the text of components, closed where the end of the source cut it off, and trimmed.
In front of an ending it is read as the closed components without the white space at their ends, if
trimming takes nothing but white space: `Component.KeepsEnds` says when that is so.
-/

namespace Css

open Component

/-- Blank characters around a text are trimmed. -/
theorem Text.trim_append {front text back : List Char} (hfront : ∀ c ∈ front, isBlank c)
    (hback : ∀ c ∈ back, isBlank c) (hfirst : text.head?.any isBlank = false)
    (hlast : text.getLast?.any isBlank = false) : trim (front ++ text ++ back) = text := by
  have hdrop : (text ++ back).dropWhile isBlank = text ++ if text = [] then [] else back := by
    cases text with
    | nil => simpa using hback
    | cons c text => simp_all
  rw [trim, List.append_assoc, List.dropWhile_append_of_pos hfront, hdrop, List.reverse_append,
    List.dropWhile_append_of_pos ?_]
  · refine List.rdropWhile_eq_self_iff.mpr fun hne => ?_
    simpa [List.getLast?_eq_getLast_of_ne_nil hne] using hlast
  · intro c hc
    split at hc
    · cases hc
    · exact hback c (List.mem_reverse.mp hc)

/-- What is left without the items at both ends does not start with such an item. -/
theorem not_of_mem_head?_rdropWhile {α : Type} (p : α → Bool) (items : List α) :
    ∀ a ∈ ((items.dropWhile p).rdropWhile p).head?, p a = false := by
  intro a ha
  obtain ⟨back, hback⟩ := List.rdropWhile_prefix p (items.dropWhile p)
  have hhead : (items.dropWhile p).head? = some a := by
    obtain ⟨others, hothers⟩ := List.head?_eq_some_iff.mp ha
    rw [← hback, hothers]
    rfl
  have hnot := List.head?_dropWhile_not p items
  rw [hhead] at hnot
  simpa using hnot

/-- Trimmed text stays as it is when it is trimmed. -/
theorem Text.trim_trim (text : List Char) : trim (trim text) = trim text := by
  have hfirst : (trim text).head?.any isBlank = false := by
    rw [Option.any_eq_false]
    exact fun c hc => by simp [not_of_mem_head?_rdropWhile isBlank text c hc]
  have hlast : (trim text).getLast?.any isBlank = false := by
    rw [Option.any_eq_false]
    intro c hc
    obtain ⟨hne, rfl⟩ := List.mem_getLast?_eq_getLast hc
    have hnot : ¬isBlank ((trim text).getLast hne) := List.rdropWhile_last_not isBlank _ hne
    simpa using hnot
  simpa using @trim_append [] (trim text) [] nofun nofun hfirst hlast

/-- White space between tokens is blank. -/
theorem Text.isBlank_of_isSpace {c : Char} (h : isSpace c) : isBlank c := by
  simp only [isSpace, decide_eq_true_eq] at h
  rcases h with rfl | rfl | rfl <;> rfl

namespace Token

/-- Whole tokens that end a source are read back in front of every ending, if the last one does not
break off. -/
theorem ReadBack.of_isWhole {tokens : List Token} {other : List Char}
    (h : ReadBack tokens []) (hwhole : ∀ t ∈ tokens, t.kind.isWhole)
    (hbreaks : ∀ t ∈ tokens.getLast?, breaksOff t.text = false) (hother : Ends other) :
    ReadBack tokens other := by
  have hover (t : Token) (ht : t ∈ tokens.getLast?) : t.kind.IsOver [] other :=
    Kind.isOver_of_isWhole (hwhole t (List.mem_of_getLast? ht)) [] other
  refine (h.of_follows hover (.ending hother)
    (fun _ _ _ => resembles_nil _) fun t ht hcut => ?_).1
  rw [hbreaks t ht] at hcut
  cases hcut

/-- Whole tokens are read back in front of every ending, if the last one is no white space, opens
nothing and does not break off. -/
theorem ReadBack.of_isWhole_concat {front : List Token} {t : Token} {rest other : List Char}
    (h : ReadBack (front ++ [t]) rest) (hwhole : ∀ u ∈ front ++ [t], u.kind.isWhole)
    (hcloser : t.kind.closer? = none) (hspace : ∀ text, t.kind ≠ .space text)
    (hbreaks : breaksOff t.text = false) (hother : Ends other) : ReadBack (front ++ [t]) other := by
  have haddress : ¬t.kind.isAddressFunction := by
    intro haddress
    rw [Kind.closer?_of_isAddressFunction haddress] at hcloser
    cases hcloser
  have ht : t.ReadsBefore other := (readBack_append.mp h).2.1.of_follows
    (Kind.isOver_of_isWhole (hwhole t (by simp)) _ _) (.ending hother) (absurd · haddress)
    (by simp [hbreaks])
  have hfollows : Follows (t.text ++ rest) (t.text ++ other) :=
    (Follows.ending hother).append (by simp [hbreaks])
  exact h.replace_last (fun u hu => hwhole u (by simp [hu])) hspace ht rfl hfollows

end Token

namespace Component

/-- White space between components. -/
def isGap : Component → Bool
  | leaf ⟨.space _, _, _⟩ => true
  | _ => false

/-- White space between components is a token. -/
theorem isGap_iff {c : Component} :
    c.isGap ↔ ∃ t text, c = leaf t ∧ t.kind = Token.Kind.space text := by
  constructor
  · intro h
    unfold isGap at h
    split at h
    · exact ⟨_, _, rfl, rfl⟩
    · cases h
  · rintro ⟨⟨_, _, _⟩, text, rfl, rfl⟩
    rfl

/-- The components without the white space at their two ends. -/
def stripOf (components : List Component) : List Component :=
  (components.dropWhile isGap).rdropWhile isGap

/-- Components are what is left of them without white space at the ends, with the white space. -/
theorem stripOf_append (components : List Component) : ∃ front back,
    components = front ++ stripOf components ++ back ∧ (∀ c ∈ front, c.isGap) ∧
      (∀ c ∈ back, c.isGap) ∧ ∀ c ∈ (stripOf components).getLast?, c.isGap = false := by
  refine ⟨components.takeWhile isGap, (components.dropWhile isGap).rtakeWhile isGap, ?_,
    fun c => List.mem_takeWhile_imp, fun c hc => List.mem_rtakeWhile_imp hc, fun c hc => ?_⟩
  · rw [stripOf, List.append_assoc, List.rdropWhile_append_rtakeWhile,
      List.takeWhile_append_dropWhile]
  · obtain ⟨hne, rfl⟩ := List.mem_getLast?_eq_getLast hc
    exact Bool.not_eq_true _ ▸ List.rdropWhile_last_not isGap _ hne

/-- White space consists of blank characters. -/
theorem isBlank_of_isGap {components : List Component} {rest : List Char}
    (hread : Token.ReadBack (tokensOf components) rest) (h : ∀ c ∈ components, c.isGap) :
    ∀ c ∈ closedTextOf components, Text.isBlank c := by
  induction components with
  | nil => nofun
  | cons component components ih =>
      obtain ⟨t, text, rfl, hkind⟩ := isGap_iff.mp (h component (List.mem_cons_self ..))
      have hclosed : t.kind.isClosed = true := by rw [hkind]; rfl
      rw [closedTextOf, closedText, if_pos hclosed]
      intro c hc
      rcases List.mem_append.mp hc with hc | hc
      · exact Text.isBlank_of_isSpace (hread.1.all_isSpace hkind c hc)
      · exact ih hread.2 (fun d hd => h d (List.mem_cons_of_mem _ hd)) c hc

/-- The brackets that close groups are read in front of everything. -/
theorem AreClosers.readBack {closers : List Token} (h : AreClosers closers) (rest : List Char) :
    Token.ReadBack closers rest := by
  induction closers with
  | nil => trivial
  | cons t closers ih =>
      obtain ⟨bracket, rfl⟩ := h t (List.mem_cons_self ..)
      exact ⟨Token.readsBefore_closing bracket _, ih fun t ht => h t (List.mem_cons_of_mem _ ht)⟩

/-- The brackets that close groups are an ending. -/
theorem AreClosers.ends {closers : List Token} (h : AreClosers closers) {rest : List Char}
    (hrest : Ends rest) : Ends (Token.textOf closers ++ rest) := by
  cases closers with
  | nil => exact hrest
  | cons t closers =>
      obtain ⟨bracket, rfl⟩ := h t (List.mem_cons_self ..)
      cases bracket <;> exact .cons (by decide) nofun

mutual

/-- In a component that holds no error, what is closed is whole. -/
theorem isWhole_of_mem_tokens (c : Component) {closer : Option Bracket}
    (h : c.IsGrouped closer ∨ c.IsCutOff) (herror : c.errorToken? = none) :
    ∀ t ∈ c.tokens, t.kind.isClosed → t.kind.isWhole := by
  cases c with
  | leaf t =>
      intro u hu hclosed
      obtain rfl := List.mem_singleton.mp hu
      have hkind : u.kind.isError = false := by simpa [errorToken?] using herror
      cases h : u.kind <;> rw [h] at hkind hclosed <;> first | exact hclosed | cases hkind
  | group opening contents closing =>
      obtain ⟨bracket, hbracket, hcontents, hclosing⟩ : ∃ bracket,
          opening.kind.closer? = some bracket ∧ AreOpen (some bracket) contents ∧
            ∀ t ∈ closing, t.kind = .closing bracket := by
        rcases h with ⟨bracket, hbracket, hcontents, t, rfl, hkind⟩ | hcut
        · exact ⟨bracket, hbracket, hcontents.areOpen, by simpa using hkind⟩
        · cases closing with
          | some t => exact hcut.elim
          | none =>
              obtain ⟨bracket, hbracket, hcontents⟩ := hcut
              exact ⟨bracket, hbracket, hcontents, nofun⟩
      intro t ht hclosed
      simp only [tokens, List.mem_cons, List.mem_append, Option.mem_toList] at ht
      rcases ht with rfl | ht | ht
      · cases hkind : t.kind <;> rw [hkind] at hbracket <;> first | rfl | cases hbracket
      · exact isWhole_of_mem contents hcontents herror t ht hclosed
      · rw [hclosing t ht]
        rfl

/-- In components that hold no error, what is closed is whole. -/
theorem isWhole_of_mem (components : List Component) {closer : Option Bracket}
    (h : AreOpen closer components) (herror : errorTokenOf? components = none) :
    ∀ t ∈ tokensOf components, t.kind.isClosed → t.kind.isWhole := by
  cases components with
  | nil => nofun
  | cons c rest =>
      rw [errorTokenOf?, Option.or_eq_none_iff] at herror
      intro t ht
      rcases List.mem_append.mp ht with ht | ht
      · have hc : c.IsGrouped closer ∨ c.IsCutOff := h.imp And.left And.left
        exact isWhole_of_mem_tokens c hc herror.1 t ht
      · rcases h with ⟨-, hrest⟩ | ⟨-, rfl⟩
        · exact isWhole_of_mem rest hrest herror.2 t ht
        · cases ht

end

/-- The last token of a grouped row opens nothing, and is no white space if the last component is
none. -/
theorem AreGrouped.last {components : List Component} {closer : Option Bracket}
    (h : AreGrouped closer components) (hlast : ∀ c ∈ components.getLast?, c.isGap = false)
    {front : List Token} {t : Token} (htokens : tokensOf components = front ++ [t]) :
    t.kind.closer? = none ∧ ∀ text, t.kind ≠ .space text := by
  rcases components.eq_nil_or_concat with rfl | ⟨before, c, rfl⟩
  · simp [tokensOf] at htokens
  rw [List.concat_eq_append] at h hlast htokens
  have hc := (areGrouped_append.mp h).2.1
  have hgap := hlast c (by simp)
  rw [tokensOf_append, tokensOf, tokensOf, List.append_nil] at htokens
  cases c with
  | leaf u =>
      obtain rfl : u = t := (List.append_inj' htokens rfl).2 |> List.singleton_inj.mp
      refine ⟨hc.1, fun text hkind => ?_⟩
      rw [isGap_iff.mpr ⟨u, text, rfl, hkind⟩] at hgap
      cases hgap
  | group opening contents closing =>
      obtain ⟨bracket, -, -, u, rfl, hkind⟩ := hc
      rw [tokens, Option.toList_some, ← List.cons_append, ← List.append_assoc] at htokens
      obtain rfl : u = t := (List.append_inj' htokens rfl).2 |> List.singleton_inj.mp
      rw [hkind]
      exact ⟨rfl, nofun⟩

/-- The closed components are read back in front of every ending, if they do not end with white
space and their last token does not break off. -/
theorem StandsBefore.readBack_closedOf {components : List Component} {closer : Option Bracket}
    {rest : List Char} (h : StandsBefore closer rest components)
    (hsound : AllTokens (fun t => t.kind.Sound) components)
    (herror : errorTokenOf? components = none)
    (hlast : ∀ c ∈ components.getLast?, c.isGap = false)
    (hbreaks : ∀ t ∈ (tokensOf components).getLast?, t.kind.isClosed → breaksOff t.text = false)
    {other : List Char} (hother : Ends other) :
    Token.ReadBack (tokensOf (closedOf components)) other := by
  obtain ⟨closers, hclosers, hnone, hcloses⟩ := closes_tokensOf components h
  have hwhole := isWhole_of_mem components h.areOpen herror
  have hread := h.readBack
  have hend {front : List Token} {t : Token} (htokens : tokensOf components = front ++ [t])
      (hrest : rest ≠ []) := (h.grouped hrest).last hlast htokens
  replace hnone : rest ≠ [] → closers = [] := fun hrest => hnone (h.grouped hrest)
  replace hsound : ∀ t ∈ tokensOf components, t.kind.Sound := hsound
  generalize tokensOf components = tokens at *
  generalize tokensOf (closedOf components) = closedTokens at *
  cases hcloses with
  | brackets hclosed =>
      refine Token.readBack_append.mpr ⟨?_, hclosers.readBack other⟩
      have hwhole (t : Token) (ht : t ∈ tokens) : t.kind.isWhole := hwhole t ht (hclosed t ht)
      have hbreaks (t : Token) (ht : t ∈ tokens.getLast?) : breaksOff t.text = false :=
        hbreaks t ht (hclosed t (List.mem_of_getLast? ht))
      by_cases hrest : rest = []
      · subst hrest
        exact hread.of_isWhole hwhole hbreaks (hclosers.ends hother)
      · obtain rfl := hnone hrest
        rcases tokens.eq_nil_or_concat with rfl | ⟨front, t, rfl⟩
        · trivial
        rw [List.concat_eq_append] at *
        obtain ⟨hcloser, hspace⟩ := hend rfl hrest
        exact hread.of_isWhole_concat hwhole hcloser hspace (hbreaks t (by simp)) hother
  | @token front _ t hfront ht =>
      have hlast := (Token.readBack_append.mp hread).2.1
      obtain rfl := hlast.eq_nil ht
      have hcut := hlast.cutOff ht
      obtain ⟨hfollows, hresembles, halike⟩ :=
        follows_closedLeaf hcut (Token.textOf closers ++ other)
      rw [List.append_assoc]
      refine hread.replace (fun u hu => hwhole u (by simp [hu]) (hfront u hu)) ?_ ?_ ?_ ?_
      · exact Token.readBack_append.mpr
          ⟨readBack_closedLeaf hcut (hsound t (by simp)) _, hclosers.readBack other⟩
      · simpa [Token.textOf] using hfollows
      · simpa [Token.textOf] using hresembles
      · simpa [Token.textOf] using halike

/-- The text is read as the components, in front of every ending. -/
structure Captured (components : List Component) (text : List Char) : Prop where
  textOf : Token.textOf (tokensOf components) = text
  grouped : ∀ closer, AreGrouped closer components
  plain : ∀ t ∈ tokensOf components, t.IsPlain
  closed : ∀ t ∈ tokensOf components, t.kind.isClosed
  readBack : ∀ rest, Ends rest → Token.ReadBack (tokensOf components) rest

mutual

/-- The tokens of a component make up its text. -/
theorem textOf_tokens (c : Component) : Token.textOf c.tokens = c.text := by
  cases c with
  | leaf t => simp [tokens, text, Token.textOf]
  | group opening contents closing =>
      cases closing <;>
        simp [tokens, text, Token.textOf, ← textOf_tokensOf contents]

/-- The tokens of components make up their text. -/
theorem textOf_tokensOf (components : List Component) :
    Token.textOf (tokensOf components) = Component.textOf components := by
  cases components with
  | nil => rfl
  | cons c rest =>
      rw [tokensOf, Token.textOf_append, textOf_tokens c, textOf_tokensOf rest, Component.textOf]

end

/-- A group of a source that has its closing bracket, if it holds no error token, is read from its
text as it is. -/
theorem StandsBefore.readFrom_group {opening t : Token} {contents : List Component}
    {closer : Option Bracket} {rest : List Char}
    (h : StandsBefore closer rest [group opening contents (some t)])
    (hplain : AllTokens Token.IsPlain [group opening contents (some t)])
    (herror : (group opening contents (some t)).errorToken? = none) :
    ReadFrom [group opening contents (some t)]
      (String.ofList (group opening contents (some t)).text) := by
  obtain ⟨bracket, hopening, hcontents, hclosing⟩ := h.contents
  obtain ⟨hkind, hgrouped⟩ := hclosing t rfl
  have htokens : tokensOf [group opening contents (some t)] =
      (opening :: tokensOf contents) ++ [t] := by simp [tokensOf, tokens]
  have hread := h.readBack
  rw [htokens] at hread
  have ht : t.text = [bracket.closer] :=
    (Token.readBack_append.mp hread).2.1.text_of_closing hkind
  -- in front of the bracket nothing is cut off
  have hclosed : ∀ u ∈ opening :: tokensOf contents, u.kind.isClosed := by
    obtain ⟨closers, -, -, hcloses⟩ := closes_tokensOf contents hcontents
    refine List.forall_mem_cons.mpr ⟨?_, (hcloses.eq_of_ne_nil hcontents.readBack ?_).2⟩
    · cases hopened : opening.kind <;> simp_all [Token.Kind.closer?, Token.Kind.isClosed]
    · simp [Token.textOf, ht]
  have hwhole : ∀ u ∈ opening :: tokensOf contents, u.kind.isWhole := fun u hu =>
    isWhole_of_mem _ h.areOpen (by rw [errorTokenOf?, herror]; rfl) u
      (by rw [htokens]; exact List.mem_append_left _ hu) (hclosed u hu)
  refine ⟨?_, fun closer => ⟨⟨bracket, hopening, hgrouped, t, rfl, hkind⟩, trivial⟩, hplain,
    fun other _ => ?_⟩
  · rw [textOf_tokensOf, Component.textOf, Component.textOf, List.append_nil, String.toList_ofList]
  · rw [htokens]
    have hbracket : t.ReadsBefore other := by
      obtain ⟨c, tail, htext, hscan⟩ := Token.readsBefore_closing bracket other
      refine ⟨c, tail, ?_, hkind ▸ hscan⟩
      rw [ht, ← htext]
      cases bracket <;> rfl
    refine hread.replace_last hwhole (by simp [hkind]) hbracket rfl (.ending ?_)
    rw [ht]
    cases bracket <;> exact .cons (by decide) nofun

/-- The token is a name that ends with the white space behind an escape, and starts with a text that
says the same. -/
structure EndsInGap (t : Token) (text : List Char) : Prop where
  isName : t.kind.isName
  gap : ∃ gap, t.text = text ++ [gap] ∧ isSpace gap
  unbroken : breaksOff text = false
  visible : text.getLast?.any Text.isBlank = false

/-- Trimming the text of components takes nothing but white space: they start and end visibly, apart
from the white space at the end of an escape, and their last token does not break off. -/
structure KeepsEnds (components : List Component) : Prop where
  first : (closedTextOf components).head?.any Text.isBlank = false
  last : (closedTextOf components).getLast?.any Text.isBlank = false ∨
    ∃ front t text, components = front ++ [leaf t] ∧ EndsInGap t text
  unbroken : ∀ t ∈ (tokensOf components).getLast?, t.kind.isClosed → breaksOff t.text = false

/-- The closed components are made of plain tokens that are closed. -/
theorem isPlain_of_mem_closedOf {components : List Component} {closer : Option Bracket}
    {rest : List Char} (h : StandsBefore closer rest components)
    (hplain : AllTokens Token.IsPlain components) :
    ∀ t ∈ tokensOf (closedOf components), t.IsPlain ∧ t.kind.isClosed := by
  obtain ⟨closers, hclosers, -, hcloses⟩ := closes_tokensOf components h
  intro t ht
  rcases hcloses.mem ht with ⟨ht, hclosed⟩ | ht | ⟨u, hu, hclosed, ht⟩
  · exact ⟨hplain t ht, hclosed⟩
  · obtain ⟨bracket, rfl⟩ := hclosers t ht
    exact ⟨Token.isPlain_closing bracket, rfl⟩
  · obtain ⟨front, back, hsplit⟩ := List.append_of_mem hu
    have hread := h.readBack
    rw [hsplit] at hread
    have hcut := (Token.readBack_append.mp hread).2.1.cutOff hclosed
    exact isPlain_closedLeaf hcut (hplain u hu).normal t ht

/-- Captured text is read as the closed components. -/
theorem StandsBefore.captured {components : List Component} {closer : Option Bracket}
    {rest : List Char} (h : StandsBefore closer rest components)
    (hsound : AllTokens (fun t => t.kind.Sound) components)
    (hplain : AllTokens Token.IsPlain components)
    (herror : errorTokenOf? components = none)
    (hlast : ∀ c ∈ components.getLast?, c.isGap = false) 
    (hbreaks : ∀ t ∈ (tokensOf components).getLast?, t.kind.isClosed → breaksOff t.text = false) :
    Captured (closedOf components) (closedTextOf components) where
  textOf := textOf_tokensOf_closedOf components
  grouped := areGrouped_closedOf components h.areOpen herror
  plain t ht := (isPlain_of_mem_closedOf h hplain t ht).1
  closed t ht := (isPlain_of_mem_closedOf h hplain t ht).2
  readBack _ hrest := h.readBack_closedOf hsound herror hlast hbreaks hrest

/-- Captured text is read as the closed components also when trimming takes the white space at the
end of an escape. -/
theorem StandsBefore.captured_of_gap {front : List Component} {t : Token} {text : List Char}
    {closer : Option Bracket} {rest : List Char}
    (h : StandsBefore closer rest (front ++ [leaf t]))
    (hplain : AllTokens Token.IsPlain (front ++ [leaf t]))
    (herror : errorTokenOf? (front ++ [leaf t]) = none) (hends : EndsInGap t text) :
    Captured (closedOf front ++ [leaf { t with text := text }]) (closedTextOf front ++ text) := by
  obtain ⟨hname, ⟨gap, htext, hgap⟩, hbreaks, -⟩ := hends
  obtain ⟨hfront, hlast⟩ := h.of_append
  have ht : t.ReadsBefore rest := hlast.readBack.1
  have hne : Token.textOf (tokensOf [leaf t]) ++ rest ≠ [] :=
    textOf_tokensOf_ne_nil hlast.readBack (List.cons_ne_nil _ _)
  obtain ⟨closers, hclosers, hnone, hcloses⟩ := closes_tokensOf front hfront
  obtain rfl := hnone (hfront.grouped hne)
  obtain ⟨heq, hclosed⟩ := hcloses.eq_of_ne_nil hfront.readBack hne
  rw [List.append_nil] at heq
  rw [errorTokenOf?_append, Option.or_eq_none_iff] at herror
  have hplainFront : AllTokens Token.IsPlain front :=
    Hereditary.of_infix hplain (List.prefix_append ..).isInfix
  have hkind : t.kind.closer? = none ∧ t.kind.isClosed ∧ (∀ bracket, t.kind ≠ .closing bracket) ∧
      ∀ text, t.kind ≠ .space text := by
    cases h : t.kind <;> rw [h] at hname <;> simp_all [Token.Kind.isName, Token.Kind.closer?,
      Token.Kind.isClosed]
  obtain ⟨hcloser, hwhole, hclosing, hspace⟩ := hkind
  have hall {P : Token → Prop} (hp : ∀ u ∈ tokensOf (closedOf front), P u)
      (ht : P { t with text := text }) :
      ∀ u ∈ tokensOf (closedOf front ++ [leaf { t with text := text }]), P u := by
    simpa [tokensOf_append, tokensOf, tokens, or_imp, forall_and] using ⟨hp, ht⟩
  constructor
  case textOf =>
    rw [tokensOf_append, Token.textOf_append, textOf_tokensOf_closedOf]
    simp [tokensOf, tokens, Token.textOf]
  case grouped =>
    exact fun closer => areGrouped_append.mpr ⟨areGrouped_closedOf front hfront.areOpen herror.1 _,
      ⟨hcloser, fun bracket _ => hclosing bracket⟩, trivial⟩
  case plain =>
    refine hall (fun u hu => (isPlain_of_mem_closedOf hfront hplainFront u hu).1) ?_
    have ht : t.IsPlain := hplain t (by simp [tokensOf_append, tokensOf, tokens])
    exact ⟨ht.normal.subset (by simp [htext]), ht.digits⟩
  case closed =>
    exact hall (fun u hu => (isPlain_of_mem_closedOf hfront hplainFront u hu).2) hwhole
  case readBack =>
    intro other hother
    have hread := h.readBack
    rw [tokensOf_append] at hread ⊢
    rw [heq]
    have ht' := ht.of_ends hname htext hgap hother hbreaks
    refine hread.replace_last (fun u hu => isWhole_of_mem front hfront.areOpen herror.1 u hu
      (hclosed u hu)) hspace ht' ?_ ?_
    · obtain ⟨c, tail, htail⟩ := List.exists_cons_of_ne_nil ht'.text_ne_nil
      have htail' : text = c :: tail := htail
      rw [htext, htail']
      rfl
    · rw [htext, List.append_assoc]
      exact (Follows.ending hother).append (by simp [hbreaks])

/-- Trimmed text of components of a source is read as the closed components without the white space
at their ends. -/
theorem StandsBefore.exists_captured {components : List Component} {closer : Option Bracket}
    {rest : List Char} (h : StandsBefore closer rest components)
    (hsound : AllTokens (fun t => t.kind.Sound) components)
    (hplain : AllTokens Token.IsPlain components) (herror : errorTokenOf? components = none)
    (hkeeps : KeepsEnds (stripOf components)) :
    ∃ values, Captured values (Text.trim (closedTextOf components)) ∧
      saidOf values = saidOf (closedOf (stripOf components)) := by
  obtain ⟨front, back, hsplit, hfront, hback, hlast⟩ := stripOf_append components
  generalize stripOf components = stripped at *
  subst hsplit
  obtain ⟨hfrontStands, hbackStands⟩ := h.of_append
  obtain ⟨hfrontStands, hstands⟩ := hfrontStands.of_append
  have hpart : stripped <:+: front ++ stripped ++ back := ⟨front, back, rfl⟩
  replace hsound := Hereditary.of_infix hsound hpart
  replace hplain := Hereditary.of_infix hplain hpart
  rw [errorTokenOf?_append, errorTokenOf?_append, Option.or_eq_none_iff,
    Option.or_eq_none_iff] at herror
  rw [closedTextOf_append, closedTextOf_append]
  have hfrontBlank := isBlank_of_isGap hfrontStands.readBack hfront
  have hbackBlank := isBlank_of_isGap hbackStands.readBack hback
  obtain ⟨hfirst, hvisible | ⟨init, t, text, rfl, hends⟩, hunbroken⟩ := hkeeps
  · rw [Text.trim_append hfrontBlank hbackBlank hfirst hvisible]
    exact ⟨closedOf stripped, hstands.captured hsound hplain herror.1.2 hlast hunbroken, rfl⟩
  · have hcaptured := hstands.captured_of_gap hplain herror.1.2 hends
    obtain ⟨hname, ⟨gap, htext, hgap⟩, -, hvisible⟩ := hends
    have hclosed : t.kind.isClosed := by
      cases hkind : t.kind <;> rw [hkind] at hname <;> first | rfl | cases hname
    have hne : text ≠ [] := by
      have hread := hcaptured.readBack [';'] (.cons (by decide) nofun)
      rw [tokensOf_append] at hread
      exact (Token.readBack_append.mp hread).2.1.text_ne_nil
    have htrim : closedTextOf front ++ closedTextOf (init ++ [leaf t]) ++ closedTextOf back =
        closedTextOf front ++ (closedTextOf init ++ text) ++ (gap :: closedTextOf back) := by
      simp [closedTextOf_append, closedTextOf, closedText, hclosed, htext]
    rw [htrim, Text.trim_append hfrontBlank ?_ ?_ ?_]
    · refine ⟨_, hcaptured, ?_⟩
      simp [closedOf_append, saidOf_append, closedOf, saidOf, closed, said, hclosed]
    · intro c hc
      rcases List.mem_cons.mp hc with rfl | hc
      · exact Text.isBlank_of_isSpace hgap
      · exact hbackBlank c hc
    · rw [closedTextOf_append, closedTextOf, closedText, if_pos hclosed, htext, closedTextOf,
        List.append_nil, ← List.append_assoc,
        List.head?_append_of_ne_nil _ (by simp [hne])] at hfirst
      exact hfirst
    · rw [List.getLast?_append_of_ne_nil _ hne]
      exact hvisible

/-- Nothing is captured as the empty text. -/
theorem captured_nil : Captured [] [] where
  textOf := rfl
  grouped _ := trivial
  plain := nofun
  closed := nofun
  readBack _ _ := trivial

/-- A token that is read back in front of captured text is captured together with it. -/
theorem Captured.cons {kind : Token.Kind} {values : List Component} {text : List Char}
    (hleaf : (Token.written kind).IsLeaf) (hplain : (Token.written kind).IsPlain)
    (hclosed : kind.isClosed)
    (hread : ∀ rest, Ends rest → (Token.written kind).ReadsBefore (text ++ rest))
    (h : Captured values text) :
    Captured (leaf (.written kind) :: values) (kind.css.toList ++ text) where
  textOf := by
    rw [← h.textOf]
    rfl
  grouped closer := ⟨⟨hleaf.closer, fun bracket _ => hleaf.closing bracket⟩, h.grouped closer⟩
  plain := List.forall_mem_cons.mpr ⟨hplain, h.plain⟩
  closed := List.forall_mem_cons.mpr ⟨hclosed, h.closed⟩
  readBack rest hrest := by
    refine ⟨?_, h.readBack rest hrest⟩
    have hbefore := hread rest hrest
    rwa [← h.textOf] at hbefore

/-- A word that needs no escapes is captured as itself. -/
theorem captured_word {word : String} (h : IsName word ∧ identifierText word = word) :
    Captured [leaf (.written (.ident word))] word.toList := by
  have hread (rest : List Char) (hrest : Ends rest) :
      (Token.written (.ident word)).ReadsBefore ([] ++ rest) := by
    have hfollows : Follows [] rest := .ending hrest
    exact Token.readsBefore_ident_of_stops h.1 (hfollows.stopsName ⟨rfl, rfl⟩)
      (hfollows.head?_ne (by decide) nofun) (.inl (hfollows.head?_ne (by decide) nofun))
  have hleaf : (Token.written (.ident word)).IsLeaf := ⟨rfl, nofun⟩
  have hword := captured_nil.cons hleaf (Token.isPlain_ident word) rfl hread
  rwa [Token.Kind.css, h.2, List.append_nil] at hword

/-- Captured texts are read one after the other, if the second one is an ending. -/
theorem Captured.append {a b : List Component} {x y : List Char} (ha : Captured a x)
    (hb : Captured b y) (hy : ∀ rest, Ends rest → Ends (y ++ rest)) :
    Captured (a ++ b) (x ++ y) where
  textOf := by rw [tokensOf_append, Token.textOf_append, ha.textOf, hb.textOf]
  grouped closer := areGrouped_append.mpr ⟨ha.grouped closer, hb.grouped closer⟩
  plain := by
    rw [tokensOf_append]
    exact List.forall_mem_append.mpr ⟨ha.plain, hb.plain⟩
  closed := by
    rw [tokensOf_append]
    exact List.forall_mem_append.mpr ⟨ha.closed, hb.closed⟩
  readBack rest hrest := by
    rw [tokensOf_append, Token.readBack_append, hb.textOf]
    exact ⟨ha.readBack _ (hy rest hrest), hb.readBack rest hrest⟩

/-- Captured text is read with what is read behind it, if that is an ending. -/
theorem Captured.before {a b : List Component} {x : List Char} {y : String} (ha : Captured a x)
    (hb : ReadFrom b y) (hy : ∀ rest, Ends (y.toList ++ rest)) :
    ReadFrom (a ++ b) (String.ofList x ++ y) where
  textOf := by
    rw [tokensOf_append, Token.textOf_append, ha.textOf, hb.textOf, String.toList_append,
      String.toList_ofList]
  grouped closer := areGrouped_append.mpr ⟨ha.grouped closer, hb.grouped closer⟩
  plain := by
    rw [tokensOf_append]
    exact List.forall_mem_append.mpr ⟨ha.plain, hb.plain⟩
  readBack rest hrest := by
    rw [tokensOf_append, Token.readBack_append, hb.textOf]
    exact ⟨ha.readBack _ (hy rest), hb.readBack rest hrest⟩

/-- Captured text is read with a semicolon behind it. -/
theorem Captured.semicolon {values : List Component} {text : List Char} (h : Captured values text) :
    ReadFrom (values ++ [leaf (.written .semicolon)]) (String.ofList text ++ ";") :=
  h.before readFrom_nil.semicolon fun _ => .cons (by decide) nofun

/-- Brackets are read around captured text. -/
theorem Captured.around {values : List Component} {text : List Char} (bracket : Bracket)
    (h : Captured values text) :
    ReadFrom [.group (.written (.opening bracket)) values (some (.written (.closing bracket)))]
      (bracket.around (String.ofList text)) := by
  refine readFrom_group rfl (isPlain_opening bracket) (fun _ => Token.readsBefore_opening bracket _)
    (h.textOf.trans String.toList_ofList.symm) h.grouped h.plain fun rest => ?_
  cases bracket <;> exact h.readBack _ (.cons (by decide) nofun)

end Component

/-- **Captured text reads back.** What a reader of a source captures between two places, if it holds
no error token and trimming takes nothing but white space, reads with a semicolon behind it as the
same components without white space at their ends, all of them closed, and the semicolon. -/
theorem Source.exists_ofString_readText {text : String} {source : Source}
    (hsource : Source.ofString text = .ok source) {before after : Cursor}
    (hholds : source.Holds before.rest) (herror : errorTokenOf? (before.read after) = none)
    (hkeeps : KeepsEnds (stripOf (before.read after))) :
    ∃ again values semicolon, Source.ofString (before.readText after ++ ";") = .ok again ∧
      ofTokens again.tokens = values ++ [.leaf semicolon] ∧ semicolon.kind = .semicolon ∧
      saidOf values = saidOf (closedOf (stripOf (before.read after))) ∧
      AreGrouped none values ∧ ∀ t ∈ tokensOf values, t.kind.isClosed := by
  have hpart : before.read after <:+: before.rest := (List.take_prefix _ _).isInfix
  obtain ⟨⟨closer, rest, hstands⟩, hsound, hplain⟩ :=
    Hereditary.of_infix (hholds.lexed hsource) hpart
  obtain ⟨components, hcaptured, hsaid⟩ := hstands.exists_captured hsound hplain herror hkeeps
  obtain ⟨again, hagain, hbare⟩ := hcaptured.semicolon.ofString
  obtain ⟨values, last, hsplit, hvalues, hlast⟩ := bareOf_eq_append hbare
  obtain ⟨semicolon, others, rfl, hkind, -, hothers⟩ := bareOf_eq_leaf_cons hlast
  obtain rfl : others = [] := by simpa [bareOf_eq_map] using hothers
  have hsaid' : saidOf values = saidOf components := by
    rw [← saidOf_bareOf values, hvalues, saidOf_bareOf]
  refine ⟨again, values, semicolon, hagain, hsplit, hkind, hsaid'.trans hsaid, ?_, fun t ht => ?_⟩
  · exact areGrouped_saidOf.mp (hsaid' ▸ areGrouped_saidOf.mpr (hcaptured.grouped none))
  · have hkinds : (tokensOf values).map Token.kind = (tokensOf components).map Token.kind := by
      rw [← kind_tokensOf_saidOf values, hsaid', kind_tokensOf_saidOf]
    have hmem := List.mem_map_of_mem (f := Token.kind) ht
    rw [hkinds] at hmem
    obtain ⟨u, hu, heq⟩ := List.mem_map.mp hmem
    rw [← heq]
    exact hcaptured.closed u hu

/-- An address that the end of the text cuts off inside a function is captured as the address
function with a string, and reads back as that. -/
theorem Source.exists_ofString_readText_url : ∃ source again values semicolon,
    Source.ofString "f( url(b" = .ok source ∧
      (Cursor.ofSource source).readText ⟨[], source.stop⟩ = "f( url(\"b\"))" ∧
      Source.ofString ((Cursor.ofSource source).readText ⟨[], source.stop⟩ ++ ";") = .ok again ∧
      ofTokens again.tokens = values ++ [.leaf semicolon] ∧ semicolon.kind = .semicolon ∧
      saidOf values = saidOf (closedOf (stripOf
        ((Cursor.ofSource source).read ⟨[], source.stop⟩))) ∧
      AreGrouped none values ∧ ∀ t ∈ tokensOf values, t.kind.isClosed := by
  obtain ⟨source, hsource, htext, herror, hkeeps⟩ : ∃ source,
      Source.ofString "f( url(b" = .ok source ∧
        (Cursor.ofSource source).readText ⟨[], source.stop⟩ = "f( url(\"b\"))" ∧
        errorTokenOf? ((Cursor.ofSource source).read ⟨[], source.stop⟩) = none ∧
        KeepsEnds (stripOf ((Cursor.ofSource source).read ⟨[], source.stop⟩)) := by
    refine ⟨_, by cbv, by cbv, by cbv, by cbv, .inl (by cbv), fun t ht hclosed => ?_⟩
    have hlast :
        some (⟨.url "b" false, ['u', 'r', 'l', '(', 'b'], ⟨3, 1, 4⟩⟩ : Token) = some t := by
      rw [← Option.mem_def.mp ht]
      cbv
    obtain rfl := Option.some.inj hlast
    cases hclosed
  have hholds : source.Holds (Cursor.ofSource source).rest := .all
  obtain ⟨again, values, semicolon, hagain⟩ :=
    Source.exists_ofString_readText hsource hholds herror hkeeps
  exact ⟨source, again, values, semicolon, hsource, htext, hagain⟩

/-- **Trimming is wider than white space.** A no-break space belongs to the name that it starts, but
captured text is trimmed of it, so the name that is read back is another one. -/
theorem Source.not_exists_ofString_readText : ∃ source again,
    Source.ofString "\u00a0b" = .ok source ∧
      errorTokenOf? ((Cursor.ofSource source).read ⟨[], source.stop⟩) = none ∧
      Source.ofString ((Cursor.ofSource source).readText ⟨[], source.stop⟩ ++ ";") = .ok again ∧
      ∀ values semicolon, ofTokens again.tokens = values ++ [.leaf semicolon] →
        saidOf values ≠ saidOf (closedOf (stripOf
          ((Cursor.ofSource source).read ⟨[], source.stop⟩))) := by
  refine ⟨_, _, by cbv, by cbv, by cbv, fun values semicolon hsplit hsaid => ?_⟩
  have hkinds := congrArg (fun components => (tokensOf components).map Token.kind) hsplit
  simp only [tokensOf_append, List.map_append] at hkinds
  rw [← kind_tokensOf_saidOf values, hsaid] at hkinds
  cbv at hkinds
  simp at hkinds

end Css
