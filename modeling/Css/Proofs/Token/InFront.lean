import Css.Proofs.Token.Digits

/-!
# Tokens in front of another text

A token that is read in front of a text is read in front of everything that follows in its place,
unless the end of the source cut the token off. A broken string needs its line break behind it, a
broken address its closing bracket.
-/

namespace Css

variable {rest other : List Char}

/-- Nothing is dropped in front of a quotation mark with at most one white space character before
it. -/
theorem dropAllButOneSpace_of_quote {s : List Char} (h : (dropSpace s).head?.any isQuote) :
    dropAllButOneSpace s = s := by
  rcases s with _ | ⟨c, _ | ⟨d, s⟩⟩
  · rfl
  · rfl
  rw [dropAllButOneSpace]
  refine if_neg fun hspace => ?_
  rw [Bool.and_eq_true] at hspace
  simp only [dropSpace, hspace.1, if_true, List.head?_cons, Option.any_some] at h
  rw [isSpace_of_isQuote h] at hspace
  cases hspace.2

/-- The white space in front of an address of which one character is kept ends in front of what
resembles the text behind it. -/
theorem dropAllButOneSpace_of_resembles (h : Resembles rest other) {text : List Char}
    (hquote : (dropSpace rest).head?.any isQuote)
    (hread : dropAllButOneSpace (text ++ rest) = rest) :
    dropAllButOneSpace (text ++ other) = other := by
  generalize hs : text ++ rest = s at hread
  fun_induction dropAllButOneSpace s generalizing text with
  | case1 c d tail hspace ih =>
      simp only [Bool.and_eq_true] at hspace
      obtain ⟨text, rfl, htext⟩ := exists_cons_of_append hs (hread ▸ dropAllButOneSpace_suffix _)
      have hother := ih htext hread
      have hd : (text ++ other).head?.any isSpace := by
        cases text with
        | nil =>
            refine h.space ?_
            rw [List.nil_append] at htext
            rw [htext]
            exact hspace.2
        | cons e text =>
            obtain ⟨rfl, -⟩ := List.cons.inj htext
            exact hspace.2
      rw [List.cons_append]
      cases htail : text ++ other with
      | nil => rw [htail] at hd; cases hd
      | cons e tail =>
          rw [htail] at hd hother
          rw [dropAllButOneSpace, if_pos (by simpa [hspace.1] using hd), hother]
  | case2 | case3 =>
      obtain rfl : text = [] := by
        rw [hread] at hs
        exact List.append_left_eq_self.mp hs
      exact dropAllButOneSpace_of_quote (h.spaceQuote hquote)

/-- One white space character may be left of the white space in front of an address. -/
theorem dropSpace_dropAllButOneSpace (s : List Char) :
    dropSpace (dropAllButOneSpace s) = s.dropWhile isSpace := by
  fun_induction dropAllButOneSpace s with
  | case1 c d s hspace ih =>
      rw [Bool.and_eq_true] at hspace
      rw [ih, List.dropWhile_cons_of_pos hspace.1]
  | case2 c d s hspace =>
      by_cases hc : isSpace c
      · have hd : ¬isSpace d := fun hd => hspace (by simp [hc, hd])
        rw [List.dropWhile_cons_of_pos hc, List.dropWhile_cons_of_neg hd]
        simp [dropSpace, hc]
      · rw [List.dropWhile_cons_of_neg hc]
        simp [dropSpace, hc]
  | case3 s hs =>
      rcases s with _ | ⟨c, _ | ⟨d, s⟩⟩
      · rfl
      · by_cases hc : isSpace c <;> simp [dropSpace, hc]
      · exact absurd rfl (hs c d s)

/-- The white space in front of an address is dropped in two steps. -/
theorem dropWhile_dropAllButOneSpace (s : List Char) :
    (dropAllButOneSpace s).dropWhile isSpace = s.dropWhile isSpace := by
  fun_induction dropAllButOneSpace s with
  | case1 c d s hspace ih =>
      rw [Bool.and_eq_true] at hspace
      rw [ih, List.dropWhile_cons_of_pos hspace.1]
  | case2 | case3 => rfl

/-- The token was neither cut off by the end of the text nor broken. -/
def Token.Kind.isWhole : Kind → Bool
  | badString _ | badUrl _ => false
  | kind => kind.isClosed

/-- In front of `rest` the token is over, and it is over in front of `other` as well: the end of the
source did not cut it off, a broken string has a line break behind it, and a broken address has its
closing bracket. -/
def Token.Kind.IsOver (rest other : List Char) : Kind → Prop
  | badString _ => other.head? = some '\n'
  | badUrl _ => rest ≠ []
  | kind => kind.isClosed

/-- A token that is whole is over in front of everything. -/
theorem Token.Kind.isOver_of_isWhole {kind : Kind} (h : kind.isWhole) (rest other : List Char) :
    kind.IsOver rest other := by
  cases kind <;> first | exact h | cases h

/-- The token is a function that takes an address. -/
def Token.Kind.isAddressFunction : Kind → Bool
  | function name => Text.lowerCase name = "url"
  | _ => false

/-- A function that takes an address opens a group. -/
theorem Token.Kind.closer?_of_isAddressFunction {kind : Kind} (h : kind.isAddressFunction) :
    kind.closer? = some .round := by
  cases kind <;> first | rfl | cases h

/-- What is not the mark that ends a hidden text does not become it. -/
theorem not_htmlClose_of_follows (hfollows : Follows rest other) {c : Char} {text : List Char}
    (hcut : breaksOff (c :: text) → GoOnAlike rest other)
    (h : ¬(c = '-' ∧ ['-', '>'].isPrefixOf (text ++ rest))) :
    ¬(c = '-' ∧ ['-', '>'].isPrefixOf (text ++ other)) := by
  rintro ⟨rfl, hprefix⟩
  rw [breaksOff_cons (by decide)] at hcut
  have hrest : ['-', '>'].isPrefixOf (text ++ rest) = false :=
    Bool.eq_false_iff.mpr fun hprefix => h ⟨rfl, hprefix⟩
  rw [(hfollows.append hcut).isPrefixOf (by decide) hrest] at hprefix
  cases hprefix

/-- What starts a name in front of what continues none is not empty. -/
theorem ne_nil_of_startsName (hstops : StopsName rest) {text : List Char}
    (h : startsName (text ++ rest)) : text ≠ [] := by
  rintro rfl
  rw [List.nil_append, hstops.startsName] at h
  cases h

/-- What continues a name in front of what continues none is not empty. -/
theorem ne_nil_of_continuesName (hstops : StopsName rest) {text : List Char}
    (h : (text ++ rest).head?.any isNameChar || startsEscape (text ++ rest)) : text ≠ [] := by
  rintro rfl
  rw [List.nil_append, hstops.nameChar, hstops.escape] at h
  cases h

/-- What continues no name in front of a text continues none in front of what follows in its
place. -/
theorem Follows.not_continuesName (hfollows : Follows rest other)
    (h : ¬(rest.head?.any isNameChar || startsEscape rest)) :
    ¬(other.head?.any isNameChar || startsEscape other) := by
  rw [Bool.not_eq_true, Bool.or_eq_false_iff] at h
  have hstops := hfollows.stopsName ⟨h.1, h.2⟩
  rw [hstops.nameChar, hstops.escape]
  exact Bool.false_ne_true

/-- What continues a name does so whatever follows it. -/
theorem continuesName_append {text : List Char} (htext : text ≠ [])
    (hbreaks : breaksOff text = false) (rest other : List Char) :
    ((text ++ other).head?.any isNameChar || startsEscape (text ++ other)) =
      ((text ++ rest).head?.any isNameChar || startsEscape (text ++ rest)) := by
  rcases text with _ | ⟨c, _ | ⟨d, text⟩⟩
  · exact absurd rfl htext
  · have hc : c ≠ '\\' := by
      rintro rfl
      cases hbreaks
    simp [startsEscape_of_ne hc]
  · simp [startsEscape_cons]

/-- Whether a text starts with a name does not depend on which of two texts stands behind it. -/
theorem startsName_append_of_follows (hfollows : Follows rest other) {text : List Char}
    (htext : text ≠ []) (hbreaks : breaksOff text = false) (hstops : StopsName rest) :
    startsName (text ++ other) = startsName (text ++ rest) := by
  by_cases hname : startsName (text ++ rest)
  · rw [hname, startsName_append htext hbreaks hstops hname]
  · rw [Bool.not_eq_true] at hname
    have happend := hfollows.append fun h => by rw [hbreaks] at h; cases h
    rw [hname, happend.startsName hname]

/-- A name at the beginning of a text is there in front of another text, and is no number. -/
theorem name_of_follows (hfollows : Follows rest other) {text name : List Char}
    (hcut : rest = [] → breaksOff text = false) (hstart : startsName (text ++ rest))
    (hread : readName (text ++ rest) = (name, rest)) :
    startsNumber (text ++ other) = false ∧ startsName (text ++ other) ∧
      readName (text ++ other) = (name, other) ∧ breaksOff text = false := by
  obtain ⟨hread', hbreaks⟩ := readName_of_follows hfollows hcut hread
  have hstops : StopsName rest := by
    have hbehind := stopsName_readName (text ++ rest)
    rwa [hread] at hbehind
  have hne := ne_nil_of_startsName hstops hstart
  have hstart' := startsName_append hne hbreaks hstops hstart other
  exact ⟨startsNumber_of_startsName hstart', hstart', hread', hbreaks⟩

/-- A name with a bracket behind it is read whatever follows the text that holds both. -/
theorem bracket_of_readName {c : Char} {text s name lead : List Char} (hs : text ++ rest = s)
    (hstart : startsName (c :: s)) (hread : readName (c :: s) = (name, '(' :: (lead ++ rest)))
    (other : List Char) :
    startsNumber (c :: (text ++ other)) = false ∧ startsName (c :: (text ++ other)) ∧
      readName (c :: (text ++ other)) = (name, '(' :: (lead ++ other)) := by
  obtain ⟨front, hfront⟩ : '(' :: (lead ++ rest) <:+ c :: s := by
    have hleft := readName_suffix (c :: s)
    rwa [hread] at hleft
  have hsplit : c :: text = front ++ '(' :: lead := by
    refine List.append_cancel_right (?_ : _ ++ rest = _)
    rw [List.cons_append, hs, ← hfront, List.append_assoc]
    rfl
  rw [← hfront] at hstart hread
  obtain ⟨hnumber', hstart', hread', -⟩ :=
    name_of_follows (show Follows _ ('(' :: (lead ++ other)) from .mark (.inl rfl)) nofun hstart
      hread
  rw [← List.cons_append, hsplit, List.append_assoc]
  exact ⟨hnumber', hstart', hread'⟩

/-- A character that starts no number in front of a text starts none in front of what follows in its
place. -/
theorem Follows.startsNumber_cons (hfollows : Follows rest other) {c : Char}
    (h : startsNumber (c :: rest) = false) : startsNumber (c :: other) = false := by
  simp only [startsNumber, Css.startsUnsigned] at h ⊢
  split at h
  · rw [if_pos ‹_›]
    exact hfollows.startsUnsigned h
  · rw [if_neg ‹_›]
    simp only [Bool.or_eq_false_iff, Bool.and_eq_false_iff] at h ⊢
    exact ⟨h.1, h.2.imp_right hfollows.startsDigit⟩

/-- A character that starts no name in front of a text starts none in front of what follows in its
place, if a line break follows where one did. -/
theorem startsName_cons_of_follows (hfollows : Follows rest other) {c : Char}
    (hline : c = '\\' → rest.head? = some '\n' → other.head? = some '\n')
    (h : startsName (c :: rest) = false) : startsName (c :: other) = false := by
  by_cases hhyphen : c = '-'
  · rw [hhyphen] at h ⊢
    exact hfollows.startsName_hyphen h
  · simp only [startsName, hhyphen, if_false, Bool.or_eq_false_iff, startsEscape_cons] at h ⊢
    refine ⟨h.1, ?_⟩
    by_cases hc : c = '\\'
    · have hrest : rest.head? = some '\n' := by simpa [hc] using h.2
      simp [hline hc hrest]
    · simp [hc]

/-- A numeral with a text behind it is read in front of what follows in place of what stands behind
both. -/
theorem numeral_of_follows {c : Char} {text lead : List Char} {value : Numeral}
    (htext : value.text.toList ++ lead = c :: text)
    (hfollows : Follows (lead ++ rest) (lead ++ other))
    (hstart : startsNumber (c :: (text ++ rest)))
    (hread : readNumeral (c :: (text ++ rest)) = (value, lead ++ rest)) :
    startsNumber (c :: (text ++ other)) ∧
      readNumeral (c :: (text ++ other)) = (value, lead ++ other) := by
  have hsplit (rest : List Char) : c :: (text ++ rest) = value.text.toList ++ (lead ++ rest) := by
    rw [← List.cons_append, ← htext, List.append_assoc]
  rw [hsplit] at hstart hread
  obtain ⟨hread', hstart'⟩ := readNumeral_of_follows hfollows hread
  rw [hsplit]
  exact ⟨hstart' hstart, hread'⟩

/-- The text of a numeral stands in front of what is left. -/
theorem text_append_of_readNumeral {text lead : List Char} {value : Numeral}
    (h : readNumeral (text ++ rest) = (value, lead ++ rest)) :
    value.text.toList ++ lead = text := by
  have happend := readNumeral_append (text ++ rest)
  rw [h] at happend
  refine List.append_cancel_right (?_ : _ ++ rest = _)
  rw [List.append_assoc]
  exact happend

/-- The text of an address is read in front of everything, if the address is closed, or broken in
front of something. -/
theorem exists_addressText {body address : List Char} {ending : Ending}
    (hquote : (dropSpace (dropAllButOneSpace body)).head?.any isQuote = false)
    (hread : readUrl ((dropAllButOneSpace body).dropWhile isSpace) = (address, ending, rest))
    (hended : ending = .closed ∨ ending = .broken ∧ rest ≠ []) : ∃ front, body = front ++ rest ∧
      ∀ other, (dropSpace (dropAllButOneSpace (front ++ other))).head?.any isQuote = false ∧
        readUrl ((dropAllButOneSpace (front ++ other)).dropWhile isSpace) =
          (address, ending, other) := by
  rw [dropWhile_dropAllButOneSpace] at hread
  rw [dropSpace_dropAllButOneSpace] at hquote
  obtain ⟨front, hfront⟩ : rest <:+ body.dropWhile isSpace := by
    have hleft := readUrl_suffix (body.dropWhile isSpace)
    rwa [hread] at hleft
  have hspaces : ∀ d ∈ body.takeWhile isSpace, isSpace d := fun d hd => List.mem_takeWhile_imp hd
  have hbody : body = body.takeWhile isSpace ++ front ++ rest := by
    rw [List.append_assoc, hfront, List.takeWhile_append_dropWhile]
  have hhead := List.head?_dropWhile_not isSpace body
  rw [← hfront] at hread hquote hhead
  refine ⟨_, hbody, fun other => ?_⟩
  cases front with
  | nil =>
      obtain ⟨lead, hlead⟩ := exists_readUrl_ended hread hended
      exact absurd (congrArg List.length hlead) (by simp; omega)
  | cons d front =>
      have hdrop : (body.takeWhile isSpace ++ d :: front ++ other).dropWhile isSpace =
          d :: front ++ other := by
        rw [List.append_assoc, List.dropWhile_append_of_pos hspaces, List.cons_append,
          List.dropWhile_cons_of_neg (by simpa using hhead)]
      rw [dropSpace_dropAllButOneSpace, dropWhile_dropAllButOneSpace, hdrop]
      exact ⟨hquote, readUrl_of_ended hread hended other⟩

/-- White space is read up to what is none. -/
theorem Scanned.space_append {c : Char} {text : List Char} (hc : isSpace c)
    (htext : ∀ d ∈ text, isSpace d) (hother : other.head?.any isSpace = false) :
    Scanned c (text ++ other) (.space (String.ofList (c :: text))) other := by
  have hscanned : Scanned c (text ++ other) _ _ := .space hc
  have hstop : other.takeWhile isSpace = [] ∧ other.dropWhile isSpace = other := by
    cases other with
    | nil => exact ⟨rfl, rfl⟩
    | cons d other =>
        have hd : ¬isSpace d := by simpa using hother
        exact ⟨List.takeWhile_cons_of_neg hd, List.dropWhile_cons_of_neg hd⟩
  rwa [List.takeWhile_append_of_pos htext, List.dropWhile_append_of_pos htext, hstop.1, hstop.2,
    List.append_nil] at hscanned

/-- A token that is read in front of a text is read in front of what follows in its place. -/
theorem Scanned.of_follows {c : Char} {text : List Char} {kind : Token.Kind}
    (h : Scanned c (text ++ rest) kind rest) (hover : kind.IsOver rest other)
    (hfollows : Follows rest other) (hresembles : kind.isAddressFunction → Resembles rest other)
    (hcut : breaksOff (c :: text) → GoOnAlike rest other) :
    Scanned c (text ++ other) kind other := by
  -- nothing goes on behind the end of the source, so nothing breaks off there
  have hend : rest = [] → breaksOff (c :: text) = false := by
    rintro rfl
    by_contra hbreaks
    cases hcut (by simpa using hbreaks)
  generalize hs : text ++ rest = s at h
  cases h with
  | comment body txt closed after hc hrest hread =>
      subst hc hrest
      obtain rfl : closed = true := hover
      have hsuffix : rest <:+ body := ⟨txt, by simpa [hread] using readComment_append body⟩
      obtain ⟨text, rfl, rfl⟩ := exists_cons_of_append hs hsuffix
      exact .comment _ txt true other rfl rfl (readComment_of_closed hread other)
  | string value ending after hc hread =>
      have hended : ending = .closed ∨ ending = .broken ∧ other.head? = some '\n' :=
        Ending.closed_or_broken (by rintro rfl; cases hover) (by rintro rfl; exact hover)
      rw [← hs] at hread
      exact .string value ending other hc (readString_of_ended hread hended)
  | hash name after hc hstart hread =>
      rw [← hs] at hstart hread ⊢
      rw [hc, breaksOff_cons (by decide)] at hend
      obtain ⟨hread', hbreaks⟩ := readName_of_follows hfollows hend hread
      have hstops : StopsName rest := by
        have hbehind := stopsName_readName (text ++ rest)
        rwa [hread] at hbehind
      have hne := ne_nil_of_continuesName hstops hstart
      rw [← startsName_append_of_follows hfollows hne hbreaks hstops]
      rw [← continuesName_append hne hbreaks rest other] at hstart
      exact .hash name other hc hstart hread'
  | number value after hstart hread hunit hsign =>
      rw [← hs, ← List.cons_append] at hstart hread
      obtain ⟨hread, hstart'⟩ := readNumeral_of_follows hfollows hread
      exact .number value other (hstart' hstart) hread (hfollows.startsName hunit)
        (hfollows.head?_ne (by decide) hsign)
  | percentage value after hstart hread =>
      rw [← hs] at hstart hread
      have htext : value.text.toList ++ ['%'] = c :: text := text_append_of_readNumeral hread
      have hmark : Follows (['%'] ++ rest) (['%'] ++ other) := .mark (.inr rfl)
      obtain ⟨hstart', hread'⟩ := numeral_of_follows htext hmark hstart hread
      exact .percentage value other hstart' hread'
  | dimension value mid unit after hstart hread hunit hname =>
      obtain ⟨lead, rfl⟩ : rest <:+ mid := by
        have hleft := readName_suffix mid
        rwa [hname] at hleft
      rw [← hs] at hstart hread
      have htext : value.text.toList ++ lead = c :: text := text_append_of_readNumeral hread
      have hbackslash := not_mem_readNumeral (c :: (text ++ rest))
      rw [hread] at hbackslash
      rw [← htext, breaksOff_append hbackslash] at hend hcut
      -- the unit is read in front of `other`, and with it the numeral in front of the unit
      obtain ⟨-, hunit', hname', hbreaks⟩ := name_of_follows hfollows hend hunit hname
      obtain ⟨hstart', hread'⟩ :=
        numeral_of_follows htext (hfollows.append hcut) hstart hread
      exact .dimension value (lead ++ other) unit other hstart' hread' hunit' hname'
  | htmlClose after hc hrest =>
      subst hc hrest
      obtain rfl : text = ['-', '>'] := List.append_cancel_right hs
      exact .htmlClose other rfl rfl
  | htmlOpen after hc hrest =>
      subst hc hrest
      obtain rfl : text = ['!', '-', '-'] := List.append_cancel_right hs
      exact .htmlOpen other rfl rfl
  | atKeyword name after hc hstart hread =>
      rw [← hs] at hstart hread
      rw [hc, breaksOff_cons (by decide)] at hend
      obtain ⟨-, hstart', hread', -⟩ := name_of_follows hfollows hend hstart hread
      exact .atKeyword name other hc hstart' hread'
  | ident name after hnumber hclose hstart hread hbracket =>
      rw [← hs] at hclose hstart hread
      rw [← List.cons_append] at hstart hread
      obtain ⟨hnumber', hstart', hread', -⟩ := name_of_follows hfollows hend hstart hread
      exact .ident name other hnumber' (not_htmlClose_of_follows hfollows hcut hclose)
        hstart' hread'
        (hfollows.head?_ne (by decide) hbracket)
  | function name after hnumber hclose hstart hread hname =>
      obtain ⟨hnumber', hstart', hread'⟩ :=
        bracket_of_readName hs hstart (show _ = (name, '(' :: ([] ++ rest)) from hread) other
      rw [← hs] at hclose
      exact .function name other hnumber' (not_htmlClose_of_follows hfollows hcut hclose) hstart'
        hread' hname
  | urlFunction name body hnumber hclose hstart hread hname hquote =>
      -- the last white space behind the bracket is left for the next token
      obtain ⟨spaces, hbody⟩ := dropAllButOneSpace_suffix body
      have hresembles' := hresembles (decide_eq_true hname)
      have hdrop : dropAllButOneSpace (spaces ++ other) = other :=
        dropAllButOneSpace_of_resembles hresembles' hquote (by rw [hbody])
      obtain ⟨hnumber', hstart', hread'⟩ :=
        bracket_of_readName hs hstart (by rw [hbody]; exact hread) other
      rw [← hs] at hclose
      have hscanned := Scanned.urlFunction name (spaces ++ other) hnumber'
        (not_htmlClose_of_follows hfollows hcut hclose) hstart' hread' hname
        (by rw [hdrop]; exact hresembles'.spaceQuote hquote)
      rwa [hdrop] at hscanned
  | url name body address ending after hnumber hclose hstart hread hname hquote hurl =>
      have hended : ending = .closed ∨ ending = .broken ∧ rest ≠ [] :=
        Ending.closed_or_broken (by rintro rfl; cases hover) (by rintro rfl; exact hover)
      obtain ⟨front, rfl, haddress⟩ := exists_addressText hquote hurl hended
      obtain ⟨hquote', hurl'⟩ := haddress other
      obtain ⟨hnumber', hstart', hread'⟩ := bracket_of_readName hs hstart hread other
      rw [← hs] at hclose
      exact .url name _ address ending other hnumber'
        (not_htmlClose_of_follows hfollows hcut hclose) hstart' hread' hname hquote' hurl'
  | space hc =>
      have happend := List.takeWhile_append_dropWhile (p := isSpace) (l := s)
      have htext : text = s.takeWhile isSpace := by
        refine List.append_cancel_right (?_ : _ ++ s.dropWhile isSpace = _)
        rw [hs, happend]
      have hspaces : ∀ d ∈ text, isSpace d := by
        rw [htext]
        exact fun d hd => List.mem_takeWhile_imp hd
      have hother : other.head?.any isSpace = false := by
        refine hfollows.head?_any (by decide) ?_
        have hhead := List.head?_dropWhile_not isSpace s
        cases hdrop : s.dropWhile isSpace with
        | nil => rfl
        | cons d tail =>
            rw [hdrop] at hhead
            simpa using hhead
      rw [← htext]
      exact .space_append hc hspaces hother
  | punctuation hcomment hquote hhash hnumber hclose hopen hat hname hspace =>
      obtain rfl : text = [] := List.append_left_eq_self.mp hs
      refine .punctuation ?_ hquote ?_ ?_ ?_ ?_ ?_ ?_ hspace
      · exact fun h => hfollows.head?_ne (by decide) (fun hhead => hcomment ⟨h.1, hhead⟩) h.2
      · exact fun h => hfollows.not_continuesName (fun hrest => hhash ⟨h.1, hrest⟩) h.2
      · exact hfollows.startsNumber_cons hnumber
      · exact not_htmlClose_of_follows hfollows (show breaksOff [c] → _ from hcut) hclose
      · rintro ⟨rfl, hprefix⟩
        have hnot : ['!', '-', '-'].isPrefixOf rest = false :=
          Bool.eq_false_iff.mpr fun h => hopen ⟨rfl, h⟩
        rw [List.nil_append, hfollows.not_htmlOpen hnot] at hprefix
        cases hprefix
      · rintro ⟨rfl, hstart⟩
        have hnot : startsName rest = false := Bool.eq_false_iff.mpr fun h => hat ⟨rfl, h⟩
        rw [List.nil_append, hfollows.startsName hnot] at hstart
        cases hstart
      · refine startsName_cons_of_follows hfollows (fun hc hrest => ?_) hname
        -- a backslash that starts no name has a line break behind it
        obtain @⟨rest, other, d, e, hline⟩ := hcut (by rw [hc]; rfl)
        rw [List.head?_cons, Option.some.injEq] at hrest ⊢
        exact hline.mp hrest

/-- A token that is over in front of a text is read in front of what follows in its place. -/
theorem Token.ReadsBefore.of_follows {t : Token} (h : t.ReadsBefore rest)
    (hover : t.kind.IsOver rest other) (hfollows : Follows rest other)
    (hresembles : t.kind.isAddressFunction → Resembles rest other)
    (hcut : breaksOff t.text → GoOnAlike rest other) : t.ReadsBefore other := by
  obtain ⟨c, text, htext, hscan⟩ := h
  rw [htext] at hcut
  exact ⟨c, text, htext,
    ((scanned_iff.mpr hscan).of_follows hover hfollows hresembles hcut).scan_eq⟩

/-- The token ends with a name. -/
def Token.Kind.isName : Kind → Bool
  | ident _ | atKeyword _ | hash _ _ | dimension _ _ => true
  | _ => false

/-- White space continues no name. -/
theorem stopsName_of_isSpace {c : Char} (hc : isSpace c) (rest : List Char) :
    StopsName (c :: rest) := by
  simp only [isSpace, decide_eq_true_eq] at hc
  rcases hc with rfl | rfl | rfl <;> exact ⟨rfl, rfl⟩

/-- The start of a name at the end of which an escape takes a white space character is a start of a
name without that character. -/
theorem startsName_of_ends (hother : Ends other) {text : List Char} {gap : Char}
    (hgap : isSpace gap) (hbreaks : breaksOff text = false) (rest : List Char) (htext : text ≠ []) :
    startsName (text ++ other) = startsName (text ++ gap :: rest) :=
  startsName_append_of_follows (.ending hother) htext hbreaks (stopsName_of_isSpace hgap rest)

/-- A dimension whose unit ends with an escape and the white space character that ends it is read
without that character in front of an ending. -/
theorem Scanned.dimension_of_ends (hother : Ends other) {c gap : Char} {text mid unit : List Char}
    {value : Numeral} (hgap : isSpace gap) (hbreaks : breaksOff (c :: text) = false)
    (hstart : startsNumber (c :: (text ++ gap :: rest)))
    (hread : readNumeral (c :: (text ++ gap :: rest)) = (value, mid)) (hunit : startsName mid)
    (hname : readName mid = (unit, rest)) :
    Scanned c (text ++ other) (.dimension value (String.ofList unit)) other := by
  obtain ⟨lead, rfl⟩ : rest <:+ mid := by
    have hleft := readName_suffix mid
    rwa [hname] at hleft
  have hnumeral : value.text.toList ++ lead = c :: text ++ [gap] := by
    have happend := readNumeral_append (c :: (text ++ gap :: rest))
    rw [hread] at happend
    refine List.append_cancel_right (?_ : _ ++ rest = _)
    simpa using happend
  -- the unit is not empty, so the white space character is its last one
  rcases List.eq_nil_or_concat' lead with rfl | ⟨lead, gap', rfl⟩
  · have hbehind := stopsName_readName ([] ++ rest)
    rw [hname] at hbehind
    rw [List.nil_append, hbehind.startsName] at hunit
    cases hunit
  obtain ⟨htext, rfl⟩ : value.text.toList ++ lead = c :: text ∧ gap' = gap := by
    rw [← List.append_assoc] at hnumeral
    simpa using List.append_inj' hnumeral rfl
  have hbackslash := not_mem_readNumeral (c :: (text ++ gap' :: rest))
  rw [hread] at hbackslash
  rw [← htext, breaksOff_append hbackslash] at hbreaks
  rw [List.append_assoc, List.singleton_append] at hread hunit hname
  have hne := ne_nil_of_startsName (stopsName_of_isSpace hgap rest) hunit
  have hmids : Follows (lead ++ gap' :: rest) (lead ++ other) :=
    Follows.append (.ending hother) fun h => by rw [hbreaks] at h; cases h
  rw [← startsName_of_ends hother hgap hbreaks rest hne] at hunit
  obtain ⟨hstart', hread'⟩ := numeral_of_follows htext hmids hstart hread
  exact .dimension value _ unit _ hstart' hread' hunit (readName_of_ends hother hgap hbreaks hname)

/-- A name that is read with a white space character at its end is read without it in front of an
ending. -/
theorem Token.ReadsBefore.of_ends {t : Token} (h : t.ReadsBefore rest) (hname : t.kind.isName)
    {text : List Char} {gap : Char} (htext : t.text = text ++ [gap]) (hgap : isSpace gap)
    (hother : Ends other) (hbreaks : breaksOff text = false) :
    ({ t with text := text } : Token).ReadsBefore other := by
  obtain ⟨c, tail, htail, hscan⟩ := h
  have hsplit : c :: (tail ++ rest) = text ++ gap :: rest := by
    rw [← List.cons_append, ← htail, htext, List.append_assoc]
    rfl
  cases text with
  | nil =>
      obtain ⟨rfl, -⟩ := List.cons.inj hsplit
      rw [(Scanned.space hgap).scan_eq] at hscan
      rw [← (Prod.mk.inj hscan).1] at hname
      cases hname
  | cons c' text =>
  obtain ⟨rfl, hs⟩ := List.cons.inj hsplit
  refine ⟨c, text, rfl, ?_⟩
  have hscanned := scanned_iff.mpr hscan
  change tail ++ rest = text ++ gap :: rest at hs
  rw [hs] at hscanned
  have hfollows : Follows (gap :: rest) other := .ending hother
  have hstops := stopsName_of_isSpace hgap rest
  show scan c (text ++ other) = (t.kind, other)
  generalize hkind : t.kind = kind at hscanned hname
  generalize hmid : text ++ gap :: rest = s at hscanned
  cases hscanned with
  | hash name after hc hstart hread =>
      rw [← hmid] at hstart hread ⊢
      rw [hc, breaksOff_cons (by decide)] at hbreaks
      have hne := ne_nil_of_continuesName hstops hstart
      rw [← startsName_of_ends hother hgap hbreaks rest hne]
      rw [← continuesName_append hne hbreaks _ other] at hstart
      exact (Scanned.hash name _ hc hstart (readName_of_ends hother hgap hbreaks hread)).scan_eq
  | dimension value mid unit after hstart hread hunit hname =>
      rw [← hmid] at hstart hread
      exact (Scanned.dimension_of_ends hother hgap hbreaks hstart hread hunit hname).scan_eq
  | atKeyword name after hc hstart hread =>
      rw [← hmid] at hstart hread
      rw [hc, breaksOff_cons (by decide)] at hbreaks
      have hne := ne_nil_of_startsName hstops hstart
      rw [← startsName_of_ends hother hgap hbreaks rest hne] at hstart
      exact (Scanned.atKeyword name _ hc hstart
        (readName_of_ends hother hgap hbreaks hread)).scan_eq
  | ident name after hnumber hclose hstart hread hbracket =>
      rw [← hmid] at hclose hstart hread
      rw [← List.cons_append] at hstart hread
      rw [← startsName_of_ends hother hgap hbreaks rest (List.cons_ne_nil c text)] at hstart
      have hclose' := not_htmlClose_of_follows hfollows
        (fun h => by rw [hbreaks] at h; cases h) hclose
      have hbracket' : other.head? ≠ some '(' := hfollows.head?_ne (by decide) (by
        rw [List.head?_cons, ne_eq, Option.some.injEq]
        rintro rfl
        cases hgap)
      exact (Scanned.ident name _ (startsNumber_of_startsName hstart) hclose' hstart
        (readName_of_ends hother hgap hbreaks hread) hbracket').scan_eq
  | string value ending => cases ending <;> cases hname
  | url name body address ending => cases ending <;> cases hname
  | punctuation =>
      unfold punctuation at hname
      split at hname <;> cases hname
  | _ => cases hname

end Css
