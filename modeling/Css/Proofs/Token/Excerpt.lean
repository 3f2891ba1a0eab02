import Css.Proofs.Token.Canonical
import Css.Proofs.Token.CutOff
import Css.Proofs.Token.Tiling

/-!
# Tokens of an excerpt

A row of tokens is cut out of a source and written in front of a delimiter and any other text.
`Source.exists_tokens_between` says that the same tokens are read of it, and then the delimiter,
unless the last token needs what stood behind it: a broken string breaks at its line break, a lone
backslash is one because of its line break, and a function that takes an address looks two
characters ahead for a quotation mark.
-/

namespace Css

open Token (Kind)

namespace Token

variable {rest other : List Char}

/-- What ends with another character than a backslash does not break off. -/
theorem breaksOff_of_append_eq {text front : List Char} {c : Char} (hc : c ≠ '\\')
    (h : text ++ rest = front ++ c :: rest) : breaksOff text = false := by
  have htext : text = front ++ [c] := by
    refine List.append_cancel_right (?_ : _ ++ rest = _)
    rw [h, List.append_assoc]
    rfl
  rw [htext]
  exact breaksOff_concat hc front

/-- A name in front of more text does not break off, since it takes what it escapes. -/
theorem breaksOff_of_readName {text name : List Char} (hrest : rest ≠ [])
    (h : readName (text ++ rest) = (name, rest)) : breaksOff text = false := by
  have hfollows : Follows rest [';'] := .ending (.cons (by decide) (absurd · (by decide)))
  exact (readName_of_follows hfollows (absurd · hrest) h).2

/-- The text of an address that has its closing bracket ends with it. -/
theorem exists_append_of_readUrl {s name body address : List Char} {ending : Ending}
    (hread : readName s = (name, '(' :: body))
    (hurl : readUrl ((dropAllButOneSpace body).dropWhile isSpace) = (address, ending, rest))
    (hended : ending = .closed ∨ ending = .broken ∧ rest ≠ []) :
    ∃ front, s = front ++ ')' :: rest := by
  obtain ⟨front, hfront⟩ := exists_readUrl_ended hurl hended
  have hbody : front ++ ')' :: rest <:+ body := by
    rw [← hfront]
    exact (List.dropWhile_suffix isSpace).trans (dropAllButOneSpace_suffix body)
  have hleft := readName_suffix s
  rw [hread] at hleft
  obtain ⟨lead, hlead⟩ := hbody.trans ((List.suffix_cons '(' body).trans hleft)
  exact ⟨lead ++ front, by rw [← hlead, List.append_assoc]⟩

/-- In front of more text, a token does not break off, unless it is a broken string or a backslash
on its own. -/
theorem ReadsBefore.breaksOff_eq_false {t : Token} (h : t.ReadsBefore rest) (hrest : rest ≠ [])
    (hstring : ∀ value, t.kind ≠ .badString value) (hescape : t.kind ≠ .delim '\\')
    (haddress : ¬t.kind.isAddressFunction) : breaksOff t.text = false := by
  have hclosed : t.kind.isClosed := by
    by_contra hclosed
    exact hrest (h.eq_nil (by simpa using hclosed))
  by_cases hspace : ∃ text, t.kind = .space text
  · obtain ⟨text, hkind⟩ := hspace
    refine breaksOff_of_not_mem fun hmem => ?_
    cases h.all_isSpace hkind '\\' hmem
  obtain ⟨c, text, htext, hscan⟩ := h
  rw [htext]
  have hscanned := scanned_iff.mpr hscan
  generalize t.kind = kind at *
  generalize hs : text ++ rest = s at hscanned
  -- most tokens end with a mark of their own, the others with a name
  have hmark (d : Char) (hd : d ≠ '\\') (h : ∃ front, c :: s = front ++ d :: rest) :
      breaksOff (c :: text) = false := by
    obtain ⟨front, hfront⟩ := h
    have hsplit : (c :: text) ++ rest = front ++ d :: rest := by
      rw [List.cons_append, hs, hfront]
    exact breaksOff_of_append_eq hd hsplit
  cases hscanned with
  | comment body txt closed after hc hbody hread =>
      obtain rfl : closed = true := hclosed
      obtain ⟨front, rfl⟩ := exists_readComment_closed hread
      have happend := readComment_append body
      rw [hread] at happend
      refine hmark '/' (by decide) ⟨'/' :: '*' :: front, ?_⟩
      rw [hc, hbody, ← happend]
      simp
  | string value ending after hc hread =>
      cases ending with
      | closed =>
          obtain ⟨front, hfront⟩ := exists_readString_closed (by rw [hread])
          rw [hread] at hfront
          refine hmark c ?_ ⟨c :: front, congrArg (c :: ·) hfront⟩
          rintro rfl
          cases hc
      | broken => exact absurd rfl (hstring _)
      | unclosed => cases hclosed
  | hash name after hc hstart hread =>
      rw [← hs] at hread
      rw [hc, breaksOff_cons (by decide), breaksOff_of_readName hrest hread]
  | number value after hstart hread =>
      have happend := readNumeral_append (c :: s)
      have hbackslash := not_mem_readNumeral (c :: s)
      rw [hread] at happend hbackslash
      rw [← hs, ← List.cons_append] at happend
      rw [List.append_cancel_right happend] at hbackslash
      exact breaksOff_of_not_mem hbackslash
  | percentage value after hstart hread =>
      have happend := readNumeral_append (c :: s)
      rw [hread] at happend
      exact hmark '%' (by decide) ⟨_, happend.symm⟩
  | dimension value mid unit after hstart hread hunit hread' =>
      obtain ⟨lead, rfl⟩ : rest <:+ mid := by
        have hleft := readName_suffix mid
        rwa [hread'] at hleft
      have hbackslash := not_mem_readNumeral (c :: s)
      rw [hread] at hbackslash
      rw [← hs] at hread
      have htext : value.text.toList ++ lead = c :: text := text_append_of_readNumeral hread
      rw [← htext, breaksOff_append hbackslash, breaksOff_of_readName hrest hread']
  | htmlClose after hc hbody => exact hmark '>' (by decide) ⟨['-', '-'], by rw [hc, hbody]; rfl⟩
  | htmlOpen after hc hbody => exact hmark '-' (by decide) ⟨['<', '!', '-'], by rw [hc, hbody]; rfl⟩
  | atKeyword name after hc hstart hread =>
      rw [← hs] at hread
      rw [hc, breaksOff_cons (by decide), breaksOff_of_readName hrest hread]
  | ident name after hnumber hclose hstart hread =>
      rw [← hs, ← List.cons_append] at hread
      exact breaksOff_of_readName hrest hread
  | function name after hnumber hclose hstart hread =>
      obtain ⟨front, hfront⟩ := readName_suffix (c :: s)
      rw [hread] at hfront
      exact hmark '(' (by decide) ⟨front, hfront.symm⟩
  | urlFunction name body hnumber hclose hstart hread hlower =>
      exact absurd (decide_eq_true hlower) haddress
  | url name body address ending after hnumber hclose hstart hread hlower hquote hurl =>
      have hended : ending = .closed ∨ ending = .broken ∧ rest ≠ [] :=
        Ending.closed_or_broken (by rintro rfl; cases hclosed) fun _ => hrest
      exact hmark ')' (by decide) (exists_append_of_readUrl hread hurl hended)
  | space hc => exact absurd ⟨_, rfl⟩ hspace
  | punctuation =>
      refine hmark c ?_ ⟨[], rfl⟩
      rintro rfl
      exact hescape rfl

/-- A row of tokens in front of more text is read back in front of every ending, if its last token
is neither a broken string nor a backslash and no function looks behind it for a quotation mark. -/
theorem ReadBack.of_ends {tokens : List Token} (h : ReadBack tokens rest) (hrest : rest ≠ [])
    (hother : Ends other) (hstring : ∀ t ∈ tokens.getLast?, ∀ value, t.kind ≠ .badString value)
    (hescape : ∀ t ∈ tokens.getLast?, t.kind ≠ .delim '\\')
    (haddress : ∀ t ∈ tokens.reverse.take 2, ¬t.kind.isAddressFunction) :
    ReadBack tokens other := by
  have hlast (t : Token) (ht : t ∈ tokens.getLast?) :
      t.ReadsBefore rest ∧ ¬t.kind.isAddressFunction := by
    obtain ⟨front, rfl⟩ := List.getLast?_eq_some_iff.mp ht
    exact ⟨(readBack_append.mp h).2.1, haddress t (by simp)⟩
  refine (h.of_follows (fun t ht => ?_) (.ending hother)
    (fun t ht hfunction => absurd hfunction (haddress t ht)) fun t ht hbreaks => ?_).1
  · -- what the end of the text left open has nothing behind it
    have hclosed : t.kind.isClosed := by
      by_contra hclosed
      exact hrest ((hlast t ht).1.eq_nil (by simpa using hclosed))
    cases hkind : t.kind with
    | badString value => exact absurd hkind (hstring t ht value)
    | badUrl address => exact hrest
    | _ =>
        rw [hkind] at hclosed
        exact hclosed
  · rw [(hlast t ht).1.breaksOff_eq_false hrest (hstring t ht) (hescape t ht) (hlast t ht).2]
      at hbreaks
    cases hbreaks

/-- A placed token says what one of the tokens does. -/
theorem exists_of_mem_placed {start : Position} {tokens : List Token} {u : Token}
    (h : u ∈ placed start tokens) : ∃ t ∈ tokens, u.kind = t.kind := by
  have hmem : u.bare ∈ (placed start tokens).map bare := List.mem_map_of_mem h
  rw [map_bare_placed] at hmem
  obtain ⟨t, ht, hbare⟩ := List.mem_map.mp hmem
  exact ⟨t, ht, (congrArg Token.kind hbare).symm⟩

/-- The second token says the same in the same text as the first one, which stands `offset`
characters further behind. -/
structure Shifted (offset : Nat) (t u : Token) : Prop where
  kind : u.kind = t.kind
  text : u.text = t.text
  start : u.start.offset + offset = t.start.offset
  stop : u.stop.offset + offset = t.stop.offset

/-- Contiguous tokens keep their distances wherever they are placed. -/
theorem forall₂_shifted_placed {offset : Nat} {start place : Position} {tokens : List Token}
    (h : Contiguous start tokens) (hstart : place.offset + offset = start.offset) :
    List.Forall₂ (Shifted offset) tokens (placed place tokens) := by
  induction tokens generalizing start place with
  | nil => exact .nil
  | cons t tokens ih =>
      obtain ⟨rfl, hnext⟩ := h
      have hstop : (place.advance t.text).offset + offset = t.stop.offset := by
        rw [Position.offset_advance, t.offset_stop]
        omega
      exact .cons ⟨rfl, rfl, hstart, hstop⟩ (ih hnext hstop)

/-- The check for too many digits finds nothing in a token without too many digits. -/
theorem excessDigits_eq_none {t : Token} (h : ∀ count, t.HasDigits count → count ≤ digitLimit) :
    t.kind.numeral?.bind Numeral.excessDigits? = none := by
  refine Option.eq_none_iff_forall_not_mem.mpr fun count hcount => ?_
  obtain ⟨hdigits, hlimit⟩ := excessDigits_eq_some_iff.mp hcount
  have hle := h count hdigits
  omega

end Token

namespace Source

/-- The text between two places of a source. -/
def between (text : List Char) (start stop : Position) : List Char :=
  (text.drop start.offset).take (stop.offset - start.offset)

/-- The tokens that are read of a text, up to the first integer with too many digits. -/
def readable (text : String) : List Token :=
  (tokensFrom .first (normalize text.toList)).takeWhile fun t =>
    (t.kind.numeral?.bind Numeral.excessDigits?).isNone

/-- Of a text that can be read, all tokens are read. -/
theorem readable_eq_tokens {text : String} {source : Source} (h : ofString text = .ok source) :
    readable text = source.tokens := by
  obtain ⟨hdigits, rfl⟩ := ofString_eq_ok_iff.mp h
  refine List.takeWhile_eq_self_iff.mpr fun t ht => ?_
  rw [Token.excessDigits_eq_none (hdigits t ht)]
  rfl

/-- Where the tokens of a row stand among the contiguous tokens of a text. -/
structure Cuts (text : List Char) (start stop : Position) (run back : List Token) : Prop where
  between : Source.between text start stop = Token.textOf run
  contiguous : Contiguous start run
  stop_eq : stop = start.advance (Token.textOf run)
  length : stop.offset + (Token.textOf back).length = text.length

/-- A row among the tokens of a text cuts its own text out, from where its first token starts to
where its last one stops. -/
theorem cuts_of_append {text : List Char} {front run back : List Token} {first last : Token}
    (hsplit : tokensFrom .first text = front ++ run ++ back) (hfirst : first ∈ run.head?)
    (hlast : last ∈ run.getLast?) : Cuts text first.start last.stop run back := by
  have htext := flatMap_text_tokensFrom .first text
  have hcontiguous := contiguous_tokensFrom .first text
  rw [hsplit] at htext hcontiguous
  obtain ⟨hrun, -⟩ := contiguous_append.mp hcontiguous
  replace hrun := (contiguous_append.mp hrun).2
  have hstart : first.start = Position.first.advance (Token.textOf front) := by
    obtain ⟨tail, rfl⟩ := List.head?_eq_some_iff.mp hfirst
    exact hrun.1
  have hstop : last.stop = first.start.advance (Token.textOf run) := by
    obtain ⟨init, rfl⟩ := List.getLast?_eq_some_iff.mp hlast
    have hlaststart : last.start = _ := (contiguous_append.mp hrun).2.1
    rw [Token.stop, hlaststart, hstart, Token.textOf_append, Position.advance_append]
    simp [Token.textOf]
  replace htext : Token.textOf front ++ Token.textOf run ++ Token.textOf back = text := by
    rw [← Token.textOf_append, ← Token.textOf_append]
    exact htext
  have hoffset : first.start.offset = (Token.textOf front).length := by
    rw [hstart, Position.offset_advance]
    exact Nat.zero_add _
  refine ⟨?_, hstart ▸ hrun, hstop, ?_⟩
  · rw [Source.between, hstop, Position.offset_advance, hoffset, ← htext, List.append_assoc,
      List.drop_left, Nat.add_sub_cancel_left, List.take_left]
  · rw [hstop, Position.offset_advance, hoffset, ← htext]
    simp only [List.length_append]

/-- The marks that may be written behind a text that was cut out of a source. -/
def marks : List Char := [';', '{', '}', ')']

/-- A mark is no character that is replaced when a source is normalized. -/
theorem normal_of_mem_marks {mark : Char} (hmark : mark ∈ marks) : Normal [mark] := by
  have hall : marks.all fun c => c ≠ '\r' ∧ c ≠ '\x0C' ∧ c ≠ '\x00' := by decide
  intro c hc
  rw [List.mem_singleton.mp hc]
  simpa using List.all_eq_true.mp hall mark hmark

/-- A mark ends what stands in front of it, whatever follows. -/
theorem ends_of_mem_marks {mark : Char} (hmark : mark ∈ marks) (rest : List Char) :
    Ends (mark :: rest) := by
  have hsubset : marks ⊆ endings := by decide
  refine .cons (hsubset hmark) ?_
  rintro rfl
  exact absurd hmark (by decide)

/-- A mark is a token, whatever follows. -/
theorem scan_of_mem_marks {mark : Char} (hmark : mark ∈ marks) (rest : List Char) :
    scan mark rest = (punctuation mark, rest) := by
  have hsubset : marks ⊆ [';', ',', ':', '!', '{', '}', '(', ')', '[', ']', '=', '>'] := by
    decide
  exact Token.scan_separator (hsubset hmark) rest

/-- Tokens without too many digits that are read back in front of a mark are read first, and then
the mark. -/
theorem readable_of_readBack {run : List Token} {mark : Char} {rest : String}
    (h : Token.ReadBack run (mark :: normalize rest.toList)) (hnormal : Normal (Token.textOf run))
    (hdigits : ∀ t ∈ run, ∀ count, t.HasDigits count → count ≤ digitLimit)
    (hmark : mark ∈ marks) :
    ∃ more, readable (String.ofList (Token.textOf run ++ mark :: rest.toList)) =
      Token.placed .first run ++
        ⟨punctuation mark, [mark], Position.first.advance (Token.textOf run)⟩ :: more := by
  have hnormalize : normalize (Token.textOf run ++ mark :: rest.toList) =
      Token.textOf run ++ mark :: normalize rest.toList := by
    have hboth := normal_append.mpr ⟨hnormal, normal_of_mem_marks hmark⟩
    have happend := hboth.normalize_append rest.toList
    rwa [List.append_assoc, List.append_assoc] at happend
  have hlimit : ∀ u ∈ Token.placed .first run,
      (u.kind.numeral?.bind Numeral.excessDigits?).isNone := by
    intro u hu
    obtain ⟨t, ht, hkind⟩ := Token.exists_of_mem_placed hu
    rw [hkind, Token.excessDigits_eq_none (hdigits t ht)]
    rfl
  have hender : (punctuation mark).numeral? = none := by
    unfold punctuation
    split <;> rfl
  have hbefore : textBefore (mark :: normalize rest.toList) (normalize rest.toList) = [mark] := by
    rw [textBefore, List.length_cons, Nat.add_sub_cancel_left]
    rfl
  refine ⟨?_, ?_⟩
  rotate_left
  · rw [readable, String.toList_ofList, hnormalize, h.tokensFrom_textOf,
      List.takeWhile_append_of_pos hlimit, tokensFrom, scan_of_mem_marks hmark, hbefore,
      List.takeWhile_cons_of_pos (by rw [hender]; rfl)]

/-- A row of tokens of a source is cut out and written in front of a semicolon, a curly bracket or a
closing round one, and of any other text. The same tokens are read of it, each as far behind the
first as before, and then that mark. This is so if the last token has something behind it in the
source and is neither a broken string nor a backslash on its own, and if neither of the last two is
a function that takes an address. -/
theorem exists_tokens_between {text : String} {source : Source}
    (h : ofString text = .ok source) {front run back : List Token}
    (hsplit : source.tokens = front ++ run ++ back) {first last : Token}
    (hfirst : first ∈ run.head?) (hlast : last ∈ run.getLast?)
    (hstop : last.stop.offset < (normalize text.toList).length)
    (hstring : ∀ value, last.kind ≠ .badString value) (hescape : last.kind ≠ .delim '\\')
    (haddress : ∀ t ∈ run.reverse.take 2, ¬t.kind.isAddressFunction) {mark : Char}
    (hmark : mark ∈ marks) (rest : String) :
    ∃ tokens ender more,
      readable (String.ofList
        (between (normalize text.toList) first.start last.stop ++ mark :: rest.toList)) =
          tokens ++ ender :: more ∧
      List.Forall₂ (Token.Shifted first.start.offset) run tokens ∧
      ender.kind = punctuation mark ∧ ender.text = [mark] ∧
      ender.start.offset + first.start.offset = last.stop.offset := by
  obtain ⟨hdigits, rfl⟩ := ofString_eq_ok_iff.mp h
  replace hsplit : tokensFrom .first (normalize text.toList) = front ++ run ++ back := hsplit
  have hcuts := cuts_of_append hsplit hfirst hlast
  have hread := Token.readBack_tokensFrom .first (normalize text.toList)
  have htext := flatMap_text_tokensFrom .first (normalize text.toList)
  rw [hsplit] at hread hdigits htext
  have hback : Token.textOf back ≠ [] := by
    intro hnil
    have hlength := hcuts.length
    rw [hnil, List.length_nil] at hlength
    omega
  have hunique (t : Token) (ht : t ∈ run.getLast?) : t = last :=
    Option.some.inj (ht.symm.trans hlast)
  have hrun : Token.ReadBack run (mark :: normalize rest.toList) := by
    have hrow := (Token.readBack_append.mp (Token.readBack_append.mp hread).1).2
    rw [List.append_nil] at hrow
    exact hrow.of_ends hback (ends_of_mem_marks hmark _) (fun t ht => hunique t ht ▸ hstring)
      (fun t ht => hunique t ht ▸ hescape) haddress
  have hnormal : Normal (Token.textOf run) := by
    refine (normal_normalize text.toList).subset ?_
    intro c hc
    rw [← htext, List.flatMap_append, List.flatMap_append]
    exact List.mem_append_left _ (List.mem_append_right _ hc)
  obtain ⟨more, hmore⟩ := readable_of_readBack hrun hnormal
    (fun t ht => hdigits t (by simp [ht])) hmark
  refine ⟨_, _, more, by rw [hcuts.between, hmore], ?_, rfl, rfl, ?_⟩
  · exact Token.forall₂_shifted_placed hcuts.contiguous (Nat.zero_add _)
  · rw [hcuts.stop_eq]
    simp only [Position.offset_advance, Position.first]
    omega

/-- The tokens of `url(a b)1/2` up to the slash: a broken address, an integer and the slash. -/
def brokenRow : List Token :=
  [⟨.badUrl "a", "url(a b)".toList, ⟨0, 1, 1⟩⟩, ⟨.number ⟨"1", .integer 1⟩, ['1'], ⟨8, 1, 9⟩⟩,
    ⟨.delim '/', ['/'], ⟨9, 1, 10⟩⟩]

/-- In front of a semicolon and an asterisk, the tokens of `url(a b)1/` are the same: the slash does
not start a comment. -/
theorem exists_tokens_between_broken : ∃ tokens ender more,
    readable (String.ofList
      (between (normalize "url(a b)1/2".toList) ⟨0, 1, 1⟩ ⟨10, 1, 11⟩ ++ ';' :: "*".toList)) =
        tokens ++ ender :: more ∧
    List.Forall₂ (Token.Shifted 0) brokenRow tokens ∧
    ender.kind = punctuation ';' ∧ ender.text = [';'] ∧ ender.start.offset + 0 = 10 := by
  obtain ⟨source, back, hsource, hsplit⟩ : ∃ source back,
      ofString "url(a b)1/2" = .ok source ∧ source.tokens = [] ++ brokenRow ++ back :=
    ⟨_, [⟨.number ⟨"2", .integer 2⟩, ['2'], ⟨10, 1, 11⟩⟩], by cbv, by cbv⟩
  have haddress : ∀ t ∈ brokenRow.reverse.take 2, ¬t.kind.isAddressFunction := by decide
  have hstring (text : String) : Kind.delim '/' ≠ .badString text := by simp
  have hescape : Kind.delim '/' ≠ .delim '\\' := by simp
  exact exists_tokens_between hsource hsplit rfl rfl (by cbv) hstring hescape haddress
    (show ';' ∈ marks by decide) "*"

end Source

end Css
