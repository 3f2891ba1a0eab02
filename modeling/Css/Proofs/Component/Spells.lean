import Css.Proofs.Component.Bare
import Css.Proofs.Token.Numeral
import Css.Proofs.Parser.Run

/-!
# Texts that spell components

`Component.ReadFrom components text` says that the text is read as components that look like the
given ones, in front of whatever is delimited. Names, strings and integers spell themselves, and
texts with a space or a comma and a space between them spell what they spell one after the other.
-/

namespace Css

namespace Token

/-- A token that neither opens nor closes a group. -/
structure IsLeaf (t : Token) : Prop where
  closer : t.kind.closer? = none
  closing : ∀ bracket, t.kind ≠ .closing bracket

end Token

namespace Component

/-- The text is read as components that look like the given ones. -/
structure ReadFrom (components : List Component) (text : String) : Prop where
  textOf : Token.textOf (tokensOf components) = text.toList
  grouped : ∀ closer, AreGrouped closer components
  plain : ∀ t ∈ tokensOf components, t.IsPlain
  readBack : ∀ rest, Delimited rest → Token.ReadBack (tokensOf components) rest

/-- The text is read as components that look like the given ones, and starts visibly. -/
structure Spells (components : List Component) (text : String) : Prop extends
    ReadFrom components text where
  visible : ∃ c rest, text.toList = c :: rest ∧ isSpace c = false

/-- A text from which components are read is a source with components that look like them. -/
theorem ReadFrom.ofString {components : List Component} {text : String}
    (h : ReadFrom components text) : ∃ source, Source.ofString text = .ok source ∧
      bareOf (Cursor.ofSource source).rest = bareOf components := by
  obtain ⟨source, hsource, hbare⟩ := (h.readBack [] nofun).exists_ofString h.plain h.textOf.symm
  refine ⟨source, hsource, ?_⟩
  show bareOf (ofTokens _) = _
  rw [bareOf_ofTokens, hbare, ← bareOf_ofTokens, ofTokens_tokensOf (h.grouped none)]

/-- Nothing is read from the empty text. -/
theorem readFrom_nil : ReadFrom [] "" where
  textOf := rfl
  grouped _ := trivial
  plain := nofun
  readBack _ _ := trivial

/-- A leaf is read from its text if its token is read back. -/
theorem readFrom_leaf {t : Token} (hleaf : t.IsLeaf) (hplain : t.IsPlain)
    (hread : ∀ rest, Delimited rest → t.ReadsBefore rest) :
    ReadFrom [.leaf t] (String.ofList t.text) where
  textOf := by simp [tokensOf, tokens, Token.textOf]
  grouped _ := ⟨⟨hleaf.closer, fun bracket _ => hleaf.closing bracket⟩, trivial⟩
  plain := by simpa [tokensOf, tokens] using hplain
  readBack rest hrest := ⟨hread rest hrest, trivial⟩

/-- Components are read from two texts, one after the other, if the tokens of the first are read
back in front of the second. -/
theorem ReadFrom.append_of_readBack {a b : List Component} {x y : String} (ha : ReadFrom a x)
    (hb : ReadFrom b y)
    (hback : ∀ rest, Delimited rest → Token.ReadBack (tokensOf a) (y.toList ++ rest)) :
    ReadFrom (a ++ b) (x ++ y) where
  textOf := by rw [tokensOf_append, Token.textOf_append, ha.textOf, hb.textOf, String.toList_append]
  grouped closer := areGrouped_append.mpr ⟨ha.grouped closer, hb.grouped closer⟩
  plain := by
    rw [tokensOf_append]
    exact List.forall_mem_append.mpr ⟨ha.plain, hb.plain⟩
  readBack rest hrest := by
    rw [tokensOf_append, Token.readBack_append, hb.textOf]
    exact ⟨hback rest hrest, hb.readBack rest hrest⟩

/-- Components are read from two texts, one after the other, if the second starts with a
delimiter. -/
theorem ReadFrom.append {a b : List Component} {x y : String} (ha : ReadFrom a x)
    (hb : ReadFrom b y) (hy : Delimited y.toList) :
    ReadFrom (a ++ b) (x ++ y) :=
  ha.append_of_readBack hb fun _ hrest => ha.readBack _ (hy.append hrest)

/-- A token that is read back in front of a text is read together with the text. -/
theorem ReadFrom.cons {kind : Token.Kind} {b : List Component} {y : String}
    (hleaf : (Token.written kind).IsLeaf) (hplain : (Token.written kind).IsPlain)
    (hread : ∀ rest, Delimited rest → (Token.written kind).ReadsBefore (y.toList ++ rest))
    (hb : ReadFrom b y) : ReadFrom (.leaf (.written kind) :: b) (kind.css ++ y) where
  textOf := by
    rw [String.toList_append, ← hb.textOf]
    rfl
  grouped closer := ⟨⟨hleaf.closer, fun bracket _ => hleaf.closing bracket⟩, hb.grouped closer⟩
  plain := by
    intro t ht
    rcases List.mem_cons.mp ht with rfl | ht
    · exact hplain
    · exact hb.plain t ht
  readBack rest hrest := by
    refine ⟨?_, hb.readBack rest hrest⟩
    have hbefore := hread rest hrest
    rwa [← hb.textOf] at hbefore

/-- A colon is read in front of what is read behind it. -/
theorem ReadFrom.colon {b : List Component} {y : String} (hb : ReadFrom b y) :
    ReadFrom (.leaf (.written .colon) :: b) (":" ++ y) :=
  hb.cons ⟨rfl, nofun⟩ (.of_all (by decide) nofun) fun _ _ => Token.readsBefore_colon _

/-- A semicolon is read in front of what is read behind it. -/
theorem ReadFrom.semicolon {b : List Component} {y : String} (hb : ReadFrom b y) :
    ReadFrom (.leaf (.written .semicolon) :: b) (";" ++ y) :=
  hb.cons ⟨rfl, nofun⟩ (.of_all (by decide) nofun) fun _ _ => Token.readsBefore_semicolon _

/-- A comma is read in front of what is read behind it. -/
theorem ReadFrom.comma {b : List Component} {y : String} (hb : ReadFrom b y) :
    ReadFrom (.leaf (.written .comma) :: b) ("," ++ y) :=
  hb.cons ⟨rfl, nofun⟩ (.of_all (by decide) nofun) fun _ _ => Token.readsBefore_comma _

/-- An equals sign is read in front of what is read behind it. -/
theorem ReadFrom.equals {b : List Component} {y : String} (hb : ReadFrom b y) :
    ReadFrom (.leaf (.written (.delim '=')) :: b) ("=" ++ y) :=
  hb.cons ⟨rfl, nofun⟩ (.of_all (by decide) nofun) fun _ _ => Token.readsBefore_equals _

/-- A greater-than sign is read in front of what is read behind it. -/
theorem ReadFrom.greater {b : List Component} {y : String} (hb : ReadFrom b y) :
    ReadFrom (.leaf (.written (.delim '>')) :: b) (">" ++ y) :=
  hb.cons ⟨rfl, nofun⟩ (.of_all (by decide) nofun) fun _ _ => Token.readsBefore_greater _

/-- A less-than sign is read in front of what does not make it the mark that opens a hidden text. -/
theorem ReadFrom.less {b : List Component} {y : String} (hb : ReadFrom b y)
    (hy : ∀ rest, (y.toList ++ rest).head? ≠ some '!') :
    ReadFrom (.leaf (.written (.delim '<')) :: b) ("<" ++ y) :=
  hb.cons ⟨rfl, nofun⟩ (.of_all (by decide) nofun) fun rest _ => Token.readsBefore_less (hy rest)

/-- A slash is read in front of what does not make it a comment. -/
theorem ReadFrom.slash {b : List Component} {y : String} (hb : ReadFrom b y)
    (hy : ∀ rest, (y.toList ++ rest).head? ≠ some '*') :
    ReadFrom (.leaf (.written (.delim '/')) :: b) ("/" ++ y) :=
  hb.cons ⟨rfl, nofun⟩ (.of_all (by decide) nofun) fun rest _ => Token.readsBefore_slash (hy rest)

/-- A space is read in front of what starts visibly. -/
theorem Spells.space {b : List Component} {y : String} (hb : Spells b y) :
    ReadFrom (.leaf (.written (.space " ")) :: b) (" " ++ y) := by
  refine hb.toReadFrom.cons ⟨rfl, nofun⟩ (.of_all (by decide) nofun) fun rest _ => ?_
  obtain ⟨c, tail, htext, hc⟩ := hb.visible
  refine Token.readsBefore_space ?_
  rw [htext]
  simp [hc]

/-- A keyword that needs no escapes is read in front of a space and what starts visibly. -/
theorem Spells.afterKeyword {b : List Component} {y word : String}
    (hword : IsName word ∧ identifierText word = word) (hb : Spells b y) :
    ReadFrom (.leaf (.written (.atKeyword word)) :: .leaf (.written (.space " ")) :: b)
      ("@" ++ word ++ (" " ++ y)) := by
  have hkeyword : (Token.Kind.atKeyword word).css = "@" ++ word := by
    rw [Token.Kind.css, hword.2]
  have hspace (rest : List Char) : Delimited ((" " ++ y).toList ++ rest) := by
    rw [String.toList_append]
    exact delimited_cons (by decide) _
  have hleaf : (Token.written (.atKeyword word)).IsLeaf :=
    ⟨rfl, fun bracket hbracket => by cases hbracket⟩
  have hread := hb.space.cons hleaf (Token.isPlain_atKeyword word)
    fun rest _ => Token.readsBefore_atKeyword hword.1 (hspace rest)
  rwa [hkeyword] at hread

/-- A text that starts with a delimiter is delimited. -/
theorem delimited_append {x y : String}
    (hx : ∃ c rest, x.toList = c :: rest ∧ c ∈ delimiters) :
    Delimited (x ++ y).toList := by
  obtain ⟨c, rest, hx, hc⟩ := hx
  rw [String.toList_append, hx]
  exact delimited_cons hc _

/-- A text in curly brackets is delimited. -/
theorem delimited_curly (y : String) : Delimited (Bracket.curly.around y).toList := by
  rw [Bracket.around, String.append_assoc]
  exact delimited_append ⟨'{', [], rfl, by decide⟩

/-- A text in curly brackets is delimited, whatever follows. -/
theorem delimited_curly_append (y z : String) :
    Delimited (Bracket.curly.around y ++ z).toList := by
  rw [Bracket.around, String.append_assoc, String.append_assoc]
  exact delimited_append ⟨'{', [], rfl, by decide⟩

/-- What starts visibly does so whatever follows. -/
theorem Spells.append {a b : List Component} {x y : String} (ha : Spells a x)
    (hb : ReadFrom b y) (hy : Delimited y.toList) :
    Spells (a ++ b) (x ++ y) where
  toReadFrom := ha.toReadFrom.append hb hy
  visible := by
    obtain ⟨c, tail, htext, hc⟩ := ha.visible
    exact ⟨c, tail ++ y.toList, by rw [String.toList_append, htext]; rfl, hc⟩

/-- Two texts with a space between them. -/
theorem Spells.append_space {a b : List Component} {x y : String} (ha : Spells a x)
    (hb : Spells b y) : Spells (a ++ .leaf (.written (.space " ")) :: b) (x ++ " " ++ y) := by
  rw [String.append_assoc]
  exact ha.append hb.space (delimited_append ⟨_, _, rfl, by decide⟩)

/-- Two texts with a comma and a space between them. -/
theorem Spells.append_comma {a b : List Component} {x y : String} (ha : Spells a x)
    (hb : Spells b y) :
    Spells (a ++ .leaf (.written .comma) :: .leaf (.written (.space " ")) :: b)
      (x ++ ", " ++ y) := by
  rw [String.append_assoc]
  exact ha.append hb.space.comma (delimited_append ⟨_, _, rfl, by decide⟩)

/-- The tokens of a group that is closed are read back in front of everything. -/
theorem readBack_group {b : List Component} {y : String} {kind : Token.Kind} {bracket : Bracket}
    (hread : ∀ rest, (Token.written kind).ReadsBefore (y.toList ++ bracket.closer :: rest))
    (htext : Token.textOf (tokensOf b) = y.toList)
    (hback : ∀ rest, Token.ReadBack (tokensOf b) (bracket.closer :: rest)) (rest : List Char) :
    Token.ReadBack (tokensOf [.group (.written kind) b (some (.written (.closing bracket)))])
      rest := by
  have hclosing : (Token.written (.closing bracket)).text = [bracket.closer] := by
    simp [Token.written, Token.Kind.css, Token.Kind.raw]
  rw [tokensOf, tokensOf, tokens, List.append_nil]
  refine ⟨?_, Token.readBack_append.mpr ⟨?_, Token.readsBefore_closing bracket _, trivial⟩⟩
  · rw [Token.textOf_append, htext]
    simpa [Token.textOf, hclosing] using hread rest
  · simpa [Token.textOf, hclosing] using hback rest

/-- A group is read from the text of its opening token, what is read back between, and the bracket
that closes it, if the opening token is read back there. -/
theorem readFrom_group {b : List Component} {y : String} {kind : Token.Kind} {bracket : Bracket}
    (hcloser : kind.closer? = some bracket) (hplain : (Token.written kind).IsPlain)
    (hread : ∀ rest, (Token.written kind).ReadsBefore (y.toList ++ bracket.closer :: rest))
    (htext : Token.textOf (tokensOf b) = y.toList) (hgrouped : ∀ closer, AreGrouped closer b)
    (hplains : ∀ t ∈ tokensOf b, t.IsPlain)
    (hback : ∀ rest, Token.ReadBack (tokensOf b) (bracket.closer :: rest)) :
    ReadFrom [.group (.written kind) b (some (.written (.closing bracket)))]
      (kind.css ++ y ++ bracket.closer.toString) where
  textOf := by
    rw [tokensOf, tokensOf, tokens, List.append_nil]
    simp only [Token.textOf, Option.toList_some, List.flatMap_cons, List.flatMap_append,
      List.flatMap_nil, List.append_nil, String.toList_append, List.append_assoc]
    rw [← Token.textOf, htext]
    rfl
  grouped closer := ⟨⟨bracket, hcloser, hgrouped _, _, rfl, rfl⟩, trivial⟩
  plain := by
    intro t ht
    simp only [tokensOf, tokens, Option.toList_some, List.append_nil, List.mem_cons,
      List.mem_append, List.not_mem_nil, or_false] at ht
    rcases ht with rfl | ht | rfl
    · exact hplain
    · exact hplains t ht
    · exact Token.isPlain_closing bracket
  readBack rest _ := readBack_group hread htext hback rest

/-- A closing bracket is a delimiter. -/
theorem delimited_closer (bracket : Bracket) (rest : List Char) :
    Delimited (bracket.closer :: rest) := by
  cases bracket <;> exact delimited_cons (by decide) rest

/-- A group is read from the text of its opening token, what is read between, and the bracket that
closes it, if the opening token is read back there. -/
theorem ReadFrom.group {b : List Component} {y : String} {kind : Token.Kind} {bracket : Bracket}
    (hcloser : kind.closer? = some bracket) (hplain : (Token.written kind).IsPlain)
    (hread : ∀ rest, (Token.written kind).ReadsBefore (y.toList ++ bracket.closer :: rest))
    (hb : ReadFrom b y) :
    ReadFrom [.group (.written kind) b (some (.written (.closing bracket)))]
      (kind.css ++ y ++ bracket.closer.toString) :=
  readFrom_group hcloser hplain hread hb.textOf hb.grouped hb.plain
    fun rest => hb.readBack _ (delimited_closer bracket rest)

/-- An opening bracket is plain. -/
theorem isPlain_opening (bracket : Bracket) : (Token.written (.opening bracket)).IsPlain :=
  .of_all (by cases bracket <;> decide) fun _ hcount => by cases hcount

/-- Brackets are read around what is read between them. -/
theorem ReadFrom.around {b : List Component} {y : String} (bracket : Bracket)
    (hb : ReadFrom b y) :
    ReadFrom [.group (.written (.opening bracket)) b (some (.written (.closing bracket)))]
      (bracket.around y) :=
  hb.group rfl (isPlain_opening bracket) fun _ => Token.readsBefore_opening bracket _

/-- Brackets are read around what is read between them, whatever is read behind. -/
theorem ReadFrom.around_append {a b : List Component} {x y : String} (bracket : Bracket)
    (ha : ReadFrom a x) (hb : ReadFrom b y) :
    ReadFrom (.group (.written (.opening bracket)) a (some (.written (.closing bracket))) :: b)
      (bracket.around x ++ y) :=
  (ha.around bracket).append_of_readBack hb fun _ _ =>
    readBack_group (fun _ => Token.readsBefore_opening bracket _) ha.textOf
      (fun _ => ha.readBack _ (delimited_closer bracket _)) _

/-- Texts with separators between them are read one after the other, if this holds for two. -/
theorem spells_intercalate {α : Type} {separator : List Component} {text : String}
    (hseparator : ∀ {a b : List Component} {x y : String}, Spells a x → Spells b y →
      Spells (a ++ (separator ++ b)) (x ++ text ++ y))
    {f : α → List Component} {g : α → String} (x : α) (xs : List α)
    (h : ∀ y ∈ x :: xs, Spells (f y) (g y)) :
    Spells (f x ++ xs.flatMap fun y => separator ++ f y) (text.intercalate ((x :: xs).map g)) := by
  induction xs generalizing x with
  | nil => simpa using h x (List.mem_singleton_self x)
  | cons y xs ih =>
      have hrest := ih y fun z hz => h z (List.mem_cons_of_mem x hz)
      rw [List.map_cons, List.map_cons, String.intercalate_cons_cons, ← List.map_cons,
        List.flatMap_cons, List.append_assoc]
      exact hseparator (h x (List.mem_cons_self ..)) hrest

/-- An identifier is read from the text of its name. -/
theorem spells_ident {name : String} (h : IsName name) :
    Spells [.leaf (.written (.ident name))] (identifierText name) where
  toReadFrom := by
    have hread :=
      readFrom_leaf (t := .written (.ident name)) ⟨rfl, nofun⟩ (Token.isPlain_ident name)
      fun _ hrest => Token.readsBefore_ident h hrest
    simpa [Token.written, Token.Kind.css] using hread
  visible := by
    have hstart := (startsName_nameText h.ne_nil []).1
    rw [List.append_nil] at hstart
    cases htext : nameText name.toList with
    | nil => exact absurd htext (nameText_ne_nil h.ne_nil)
    | cons c rest =>
        rw [htext] at hstart
        refine ⟨c, rest, by simp [identifierText, htext], ?_⟩
        have htab := ne_of_startsName (d := '\t') hstart rfl (by decide) (by decide)
        have hline := ne_of_startsName (d := '\n') hstart rfl (by decide) (by decide)
        have hspace := ne_of_startsName (d := ' ') hstart rfl (by decide) (by decide)
        simp [isSpace, htab, hline, hspace]

/-- A string is read from its written form. -/
theorem spells_string {value : String} (h : NullFree value.toList) :
    Spells [.leaf (.written (.string value true))] (stringText value) where
  toReadFrom := by
    have hread := readFrom_leaf (t := .written (.string value true)) ⟨rfl, nofun⟩
      (Token.isPlain_string value) fun rest _ => Token.readsBefore_string h rest
    simpa [Token.written, Token.Kind.css] using hread
  visible := ⟨'"', value.toList.flatMap stringCharText ++ ['"'], by simp [stringText], rfl⟩

/-- The address function with its address as a string. -/
def url (address : String) : Component :=
  .group (.written (.function "url")) [.leaf (.written (.string address true))]
    (some (.written (.closing .round)))

/-- An address is read from its written form. -/
theorem spells_url {address : String} (h : NullFree address.toList) :
    Spells [url address] ("url(" ++ stringText address ++ ")") where
  toReadFrom := by
    have hquote (rest : List Char) : ∃ text,
        (stringText address).toList ++ Bracket.round.closer :: rest = '"' :: text :=
      ⟨_, by rw [stringText, String.toList_ofList]; rfl⟩
    refine (spells_string h).toReadFrom.group rfl Token.isPlain_url fun rest => ?_
    obtain ⟨text, htext⟩ := hquote rest
    rw [htext]
    exact Token.readsBefore_url text
  visible := ⟨'u', _, by rw [String.append_assoc, String.toList_append]; rfl, rfl⟩

/-- A written number starts with no other character than a sign, a point or a digit. -/
theorem head?_ne_of_isCanonical {n : Numeral} (h : n.IsCanonical) {d : Char}
    (hsign : ¬(d = '+' ∨ d = '-')) (hpoint : d ≠ '.') (hd : isDigit d = false)
    (rest : List Char) : (n.text.toList ++ rest).head? ≠ some d := by
  have hstart := h.startsNumber rest
  cases htext : n.text.toList ++ rest with
  | nil => nofun
  | cons c text =>
      rw [htext] at hstart
      exact fun heq => ne_of_startsNumber hstart hsign hpoint hd (Option.some.inj heq)

/-- A written number starts visibly. -/
theorem visible_of_isCanonical {n : Numeral} (h : n.IsCanonical) :
    ∃ c rest, n.text.toList = c :: rest ∧ isSpace c = false := by
  have hne {d : Char} (hsign : ¬(d = '+' ∨ d = '-')) (hpoint : d ≠ '.') (hd : isDigit d = false) :=
    head?_ne_of_isCanonical h hsign hpoint hd []
  obtain ⟨c, rest, htext⟩ := h.exists_cons
  rw [htext, List.append_nil] at hne
  refine ⟨c, rest, htext, ?_⟩
  simp only [isSpace, decide_eq_false_iff_not]
  rintro (rfl | rfl | rfl)
  · exact hne (by decide) (by decide) rfl rfl
  · exact hne (by decide) (by decide) rfl rfl
  · exact hne (by decide) (by decide) rfl rfl

/-- A number is read from its text. -/
theorem spells_number {n : Numeral} (h : n.IsCanonical) :
    Spells [.leaf (.written (.number n))] n.text where
  toReadFrom := by
    have hread := readFrom_leaf (t := .written (.number n)) ⟨rfl, nofun⟩ (Token.isPlain_number h)
      fun _ hrest => Token.readsBefore_number h hrest
    simpa [Token.written, Token.Kind.css, Token.Kind.raw] using hread
  visible := visible_of_isCanonical h

/-- A number with a percent sign is read from its text. -/
theorem spells_percentage {n : Numeral} (h : n.IsCanonical) :
    Spells [.leaf (.written (.percentage n))] (n.text ++ "%") where
  toReadFrom := by
    have hread := readFrom_leaf (t := .written (.percentage n)) ⟨rfl, nofun⟩
      (Token.isPlain_percentage h) fun rest _ => Token.readsBefore_percentage h rest
    simpa [Token.written, Token.Kind.css, Token.Kind.raw] using hread
  visible := by
    obtain ⟨c, rest, htext, hc⟩ := visible_of_isCanonical h
    exact ⟨c, rest ++ "%".toList, by rw [String.toList_append, htext]; rfl, hc⟩

/-- A number with a unit is read from its text. -/
theorem spells_dimension {n : Numeral} (h : n.IsCanonical) {unit : String} (hunit : IsUnit unit) :
    Spells [.leaf (.written (.dimension n unit))] (n.text ++ unit) where
  toReadFrom := by
    have hread := readFrom_leaf (t := .written (.dimension n unit)) ⟨rfl, nofun⟩
      (Token.isPlain_dimension h hunit.identifierText) fun _ hrest =>
        Token.readsBefore_dimension h hunit hrest
    simpa [Token.written, Token.Kind.css, Token.Kind.raw] using hread
  visible := by
    obtain ⟨c, rest, htext, hc⟩ := visible_of_isCanonical h
    exact ⟨c, rest ++ unit.toList, by rw [String.toList_append, htext]; rfl, hc⟩

/-- An integer is read from its digits. -/
theorem spells_integer {n : Int} (h : n.natAbs < 10 ^ digitLimit) :
    Spells [.leaf (.written (.number (.ofInt n)))] (toString n) :=
  spells_number (Numeral.isCanonical_ofInt h)

/-- A word that needs no escapes is read from itself. -/
theorem spells_word {word : String} (h : IsName word ∧ identifierText word = word) :
    Spells [.leaf (.written (.ident word))] word := by
  have hspells := spells_ident h.1
  rwa [h.2] at hspells

end Component

end Css
