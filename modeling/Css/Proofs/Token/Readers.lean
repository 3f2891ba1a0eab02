import Css.Proofs.Token.Follows

/-!
# Readers in front of another text

What a reader takes of a text, it takes of the text in front of everything that follows in place of
the rest. Strings, addresses and comments that are closed do not look behind their last character at
all. The one exception is a name with a backslash at its end, which escapes whatever comes next.
-/

namespace Css

variable {rest other : List Char}

/-- An end of a text that is not shorter than its second part holds that part. -/
theorem exists_append_of_suffix {s front back : List Char} (h : s <:+ front ++ back)
    (hlength : back.length ≤ s.length) : ∃ lead mid, front = lead ++ mid ∧ s = mid ++ back := by
  obtain ⟨lead, hlead⟩ := h
  rcases List.append_eq_append_iff.mp hlead with ⟨mid, rfl, rfl⟩ | ⟨mid, rfl, rfl⟩
  · exact ⟨lead, mid, rfl, rfl⟩
  · rw [List.length_append] at hlength
    have hmid : mid = [] := List.eq_nil_of_length_eq_zero (by omega)
    subst hmid
    exact ⟨front, [], by simp, rfl⟩

/-- What follows the first character is part of the first text if the second one stays behind it. -/
theorem exists_cons_of_append {text tail : List Char} {c : Char} (h : text ++ rest = c :: tail)
    (hsuffix : rest <:+ tail) : ∃ text', text = c :: text' ∧ text' ++ rest = tail := by
  cases text with
  | nil =>
      have hle := hsuffix.length_le
      rw [List.nil_append] at h
      rw [h, List.length_cons] at hle
      omega
  | cons d text =>
      obtain ⟨rfl, htail⟩ := List.cons.inj h
      exact ⟨text, rfl, htail⟩

/-- A text that is over is closed, or it is broken in the way that makes it over. -/
theorem Ending.closed_or_broken {ending : Ending} {P : Prop} (hunclosed : ending ≠ .unclosed)
    (hbroken : ending = .broken → P) : ending = .closed ∨ ending = .broken ∧ P := by
  cases ending with
  | closed => exact .inl rfl
  | broken => exact .inr ⟨rfl, hbroken rfl⟩
  | unclosed => exact absurd rfl hunclosed

/-- An escape that ends in front of `rest` ends in front of `other`. -/
structure EndsEscape (rest other : List Char) : Prop where
  hex : rest.head?.any isHexDigit = false → other.head?.any isHexDigit = false
  space : rest.head?.any isSpace = false → other.head?.any isSpace = false

/-- An escape that ends in front of a text ends in front of what follows in its place. -/
theorem Follows.endsEscape (h : Follows rest other) : EndsEscape rest other :=
  ⟨h.head?_any (by decide), h.head?_any (by decide)⟩

/-- An escape that ends in front of a text ends there whatever follows the text. -/
theorem endsEscape_append {text : List Char} (h : text ≠ []) (rest other : List Char) :
    EndsEscape (text ++ rest) (text ++ other) := by
  obtain ⟨c, text, rfl⟩ := List.exists_cons_of_ne_nil h
  exact ⟨id, id⟩

/-- An escape that ends in front of a text ends in front of what follows in its place, also when the
same text stands between. -/
theorem EndsEscape.append (h : EndsEscape rest other) (text : List Char) :
    EndsEscape (text ++ rest) (text ++ other) := by
  cases text with
  | nil => exact h
  | cons c text => exact ⟨id, id⟩

/-- The longest beginning with a property is the same in front of what does not continue it. -/
theorem takeWhile_take_append {p : Char → Bool} (text : List Char) (k : Nat)
    (hother : rest.head?.any p = false → other.head?.any p = false)
    (h : (((text ++ rest).take k).takeWhile p).length ≤ text.length) :
    ((text ++ other).take k).takeWhile p = ((text ++ rest).take k).takeWhile p := by
  induction text generalizing k with
  | nil =>
      cases k with
      | zero => rfl
      | succ k =>
          have hnil := List.eq_nil_of_length_eq_zero (Nat.le_zero.mp h)
          have hrest : rest.head?.any p = false := by
            cases rest with
            | nil => rfl
            | cons d rest => simpa [List.takeWhile_cons] using hnil
          rw [hnil, List.nil_append]
          have hhead := hother hrest
          cases other with
          | nil => rfl
          | cons d other =>
              rw [List.take_succ_cons, List.takeWhile_cons_of_neg (by simpa using hhead)]
  | cons c text ih =>
      cases k with
      | zero => rfl
      | succ k =>
          simp only [List.cons_append, List.take_succ_cons, List.takeWhile_cons] at h ⊢
          split
          · rename_i hc
            rw [if_pos hc, List.length_cons, List.length_cons] at h
            rw [ih k (by omega)]
          · rfl

/-- A text in front of which one optional white space character ends is empty or is that
character. -/
theorem eq_of_dropSpace {text : List Char} (h : dropSpace (text ++ rest) = rest) :
    (text = [] ∧ rest.head?.any isSpace = false) ∨ ∃ c, text = [c] ∧ isSpace c := by
  cases text with
  | nil =>
      refine .inl ⟨rfl, ?_⟩
      cases rest with
      | nil => rfl
      | cons c rest =>
          simp only [List.nil_append, dropSpace] at h
          split at h
          · exact absurd (congrArg List.length h) (by simp)
          · rename_i hc
            simpa using hc
  | cons c text =>
      simp only [List.cons_append, dropSpace] at h
      split at h
      · have htext := List.append_left_eq_self.mp h
        exact .inr ⟨c, by rw [htext], ‹_›⟩
      · rw [← List.cons_append] at h
        cases List.append_left_eq_self.mp h

/-- One optional white space character ends in front of another text. -/
theorem dropSpace_of_endsEscape (hends : EndsEscape rest other) {text : List Char}
    (h : dropSpace (text ++ rest) = rest) : dropSpace (text ++ other) = other := by
  rcases eq_of_dropSpace h with ⟨rfl, hrest⟩ | ⟨c, rfl, hc⟩
  · have hother := hends.space hrest
    cases other with
    | nil => rfl
    | cons c other => simpa [dropSpace] using hother
  · simp [dropSpace, hc]

/-- The digits of an escape that ends in front of `rest` are part of the text in front of it, and
one optional white space character is what stays of that text. -/
theorem hexDigits_of_readEscape {text : List Char} {c d : Char} (hd : isHexDigit d)
    (h : readEscape (d :: text ++ rest) = (c, rest)) :
    ∃ n, (((d :: text ++ rest).take 6).takeWhile isHexDigit).length = n ∧
      n ≤ (d :: text).length ∧ dropSpace ((d :: text).drop n ++ rest) = rest := by
  refine ⟨_, rfl, ?_⟩
  simp only [List.cons_append, readEscape, hd, if_true] at h
  obtain ⟨-, hdrop⟩ := Prod.mk.inj h
  rw [← List.cons_append] at hdrop
  have hlength : (((d :: text ++ rest).take 6).takeWhile isHexDigit).length ≤
      (d :: text).length := by
    have hle := (dropSpace_suffix ((d :: text ++ rest).drop
      (((d :: text ++ rest).take 6).takeWhile isHexDigit).length)).length_le
    rw [hdrop, List.length_drop, List.length_append] at hle
    have hdigits := (List.takeWhile_prefix isHexDigit (l := (d :: text ++ rest).take 6)).length_le
    rw [List.length_take, List.length_append] at hdigits
    omega
  exact ⟨hlength, by rwa [List.drop_append_of_le_length hlength] at hdrop⟩

/-- An escape is read in front of another text if it ends there. -/
theorem readEscape_of_endsEscape (hends : EndsEscape rest other) {text : List Char} {c : Char}
    (htext : text ≠ []) (h : readEscape (text ++ rest) = (c, rest)) :
    readEscape (text ++ other) = (c, other) := by
  obtain ⟨d, text, rfl⟩ := List.exists_cons_of_ne_nil htext
  by_cases hd : isHexDigit d
  · obtain ⟨n, hn, hlength, hdrop⟩ := hexDigits_of_readEscape hd h
    have htake := takeWhile_take_append (d :: text) 6 hends.hex (hn.trans_le hlength)
    rw [List.cons_append] at h ⊢
    simp only [readEscape, hd, if_true, ← List.cons_append, htake, hn,
      List.drop_append_of_le_length hlength, dropSpace_of_endsEscape hends hdrop] at h ⊢
    rw [(Prod.mk.inj h).1]
  · simp only [List.cons_append, readEscape, hd] at h ⊢
    obtain ⟨rfl, htail⟩ := Prod.mk.inj h
    rw [List.append_left_eq_self.mp htail]
    rfl

/-- Behind the first character of an escape there is no backslash. -/
theorem not_mem_of_readEscape {text : List Char} {c d : Char}
    (h : readEscape (d :: text ++ rest) = (c, rest)) : '\\' ∉ text := by
  by_cases hd : isHexDigit d
  · obtain ⟨n, hn, hlength, hdrop⟩ := hexDigits_of_readEscape hd h
    have hdigits : ∀ e ∈ (d :: text).take n, isHexDigit e := by
      have hfront := List.takeWhile_prefix isHexDigit (l := (d :: text ++ rest).take 6)
      have heq := List.prefix_iff_eq_take.mp (hfront.trans (List.take_prefix 6 _))
      rw [hn, List.take_append_of_le_length hlength] at heq
      intro e he
      rw [← heq] at he
      exact (List.mem_takeWhile_imp he)
    have hmem : '\\' ∉ d :: text := by
      rw [← List.take_append_drop n (d :: text), List.mem_append, not_or]
      refine ⟨fun hmem => absurd (hdigits _ hmem) (by decide), ?_⟩
      rcases eq_of_dropSpace hdrop with ⟨hnil, -⟩ | ⟨e, he, hspace⟩
      · simp [hnil]
      · rw [he, List.mem_singleton]
        rintro rfl
        cases hspace
    exact fun h => hmem (List.mem_cons_of_mem d h)
  · simp only [List.cons_append, readEscape, hd] at h
    simp [List.append_left_eq_self.mp (Prod.mk.inj h).2]

/-- What follows an escape is shorter than what follows its backslash. -/
theorem length_readEscape_lt {text : List Char} (h : text ≠ []) :
    (readEscape text).2.length < text.length := by
  obtain ⟨c, text, rfl⟩ := List.exists_cons_of_ne_nil h
  by_cases hc : isHexDigit c
  · have hle := (dropSpace_suffix ((c :: text).drop
      (((c :: text).take 6).takeWhile isHexDigit).length)).length_le
    have hpos : 0 < (((c :: text).take 6).takeWhile isHexDigit).length := by
      rw [List.take_succ_cons, List.takeWhile_cons_of_pos hc]
      exact Nat.succ_pos _
    rw [List.length_drop] at hle
    simp only [readEscape, hc, if_true]
    rw [List.length_cons] at hle ⊢
    omega
  · simp [readEscape, hc]

/-- If a text stays behind an escape, the escape takes something of what stands in front of the
text. -/
theorem exists_readEscape {text : List Char} (hne : text ++ rest ≠ [])
    (h : rest <:+ (readEscape (text ++ rest)).2) :
    ∃ d front mid, text = d :: front ++ mid ∧
      readEscape (d :: front ++ (mid ++ rest)) = ((readEscape (text ++ rest)).1, mid ++ rest) := by
  obtain ⟨front, mid, rfl, hmid⟩ := exists_append_of_suffix (readEscape_suffix _) h.length_le
  cases front with
  | nil =>
      have hlt := length_readEscape_lt hne
      rw [hmid, List.nil_append] at hlt
      exact absurd hlt (Nat.lt_irrefl _)
  | cons d front =>
      refine ⟨d, front, mid, rfl, ?_⟩
      rw [← List.append_assoc]
      exact Prod.ext rfl hmid

/-- A name that ends in front of a text is read in front of what follows in its place, unless it
ends with the backslash of an escape that the end of the source cut off. -/
theorem readName_of_follows (hfollows : Follows rest other) {text name : List Char}
    (hcut : rest = [] → breaksOff text = false) (h : readName (text ++ rest) = (name, rest)) :
    readName (text ++ other) = (name, other) ∧ breaksOff text = false := by
  generalize hs : text ++ rest = s at h
  fun_induction readName s generalizing text name with
  | case1 =>
      obtain ⟨rfl, rfl⟩ := List.append_eq_nil_iff.mp hs
      obtain ⟨rfl, -⟩ := Prod.mk.inj h
      exact ⟨(hfollows.stopsName ⟨rfl, rfl⟩).readName, rfl⟩
  | case2 c tail hc found left hread ih =>
      obtain ⟨rfl, rfl⟩ := Prod.mk.inj h
      have hsuffix : left <:+ tail := by
        have hleft := readName_suffix tail
        rwa [hread] at hleft
      obtain ⟨text, rfl, htext⟩ := exists_cons_of_append hs hsuffix
      have hne : c ≠ '\\' := by
        rintro rfl
        cases hc
      rw [breaksOff_cons hne] at hcut ⊢
      obtain ⟨hname, hbreaks⟩ := ih hcut htext hread
      exact ⟨by rw [List.cons_append, readName, if_pos hc, hname], hbreaks⟩
  | case3 c tail hc hescape found left hread ih =>
      obtain ⟨rfl, rfl⟩ := Prod.mk.inj h
      have hsuffix : left <:+ (readEscape tail).2 := by
        have hleft := readName_suffix (readEscape tail).2
        rwa [hread] at hleft
      obtain ⟨text, rfl, rfl⟩ := exists_cons_of_append hs (hsuffix.trans (readEscape_suffix tail))
      obtain rfl : c = '\\' := by
        rw [startsEscape_cons, Bool.and_eq_true, beq_iff_eq] at hescape
        exact hescape.1
      have hne : text ++ left ≠ [] := by
        intro hnil
        obtain ⟨rfl, rfl⟩ := List.append_eq_nil_iff.mp hnil
        cases hcut rfl
      obtain ⟨d, front, mid, rfl, htake⟩ := exists_readEscape hne hsuffix
      have hmidcut : breaksOff ('\\' :: (d :: front ++ mid)) = breaksOff mid := by
        rw [List.cons_append, breaksOff_escape, breaksOff_append (not_mem_of_readEscape htake)]
      rw [hmidcut] at hcut ⊢
      have hmid : mid ++ left = (readEscape (d :: front ++ mid ++ left)).2 := by
        rw [List.append_assoc, htake]
      obtain ⟨hname, hbreaks⟩ := ih hcut hmid hread
      have hother := readEscape_of_endsEscape (hfollows.endsEscape.append mid)
        (List.cons_ne_nil d front) htake
      rw [← List.append_assoc] at hother
      have hstart : startsEscape ('\\' :: (d :: front ++ mid ++ other)) := by
        rw [startsEscape_cons] at hescape ⊢
        exact hescape
      refine ⟨?_, hbreaks⟩
      rw [List.cons_append, readName, if_neg hc, if_pos hstart, hother]
      dsimp only
      rw [hname]
  | case4 c tail hc hescape =>
      obtain ⟨rfl, htail⟩ := Prod.mk.inj h
      rw [← hs] at htail
      obtain rfl := List.append_left_eq_self.mp htail
      rw [List.nil_append] at hs
      have hstops : StopsName rest := by
        rw [hs]
        exact ⟨by simpa using hc, by simpa using hescape⟩
      exact ⟨(hfollows.stopsName hstops).readName, rfl⟩

/-- Behind a name stands what continues none. -/
theorem stopsName_readName (s : List Char) : StopsName (readName s).2 := by
  fun_induction readName s with
  | case1 => exact ⟨rfl, rfl⟩
  | case2 c tail _ found left hread ih | case3 c tail _ _ found left hread ih =>
      rwa [hread] at ih
  | case4 c tail hc hescape => exact ⟨by simpa using hc, by simpa using hescape⟩

/-- A text that starts with a name in front of what continues none starts with a name whatever
follows. -/
theorem startsName_append {text : List Char} (htext : text ≠ []) (hbreaks : breaksOff text = false)
    (hstops : StopsName rest) (h : startsName (text ++ rest)) (other : List Char) :
    startsName (text ++ other) := by
  rcases text with _ | ⟨c, _ | ⟨d, _ | ⟨e, text⟩⟩⟩
  · exact absurd rfl htext
  · have hc : c ≠ '\\' := by
      rintro rfl
      cases hbreaks
    by_cases hhyphen : c = '-'
    · subst hhyphen
      have hchar := hstops.nameChar
      rw [List.singleton_append, startsName, if_pos rfl, hstops.escape, Bool.false_or] at h
      cases rest with
      | nil => cases h
      | cons e rest =>
          simp only [List.head?_cons, Option.any_some, isNameChar, Bool.or_eq_false_iff,
            Bool.or_eq_true] at hchar h
          simp [hchar] at h
    · simpa [startsName, hhyphen, startsEscape_of_ne hc] using h
  · by_cases hhyphen : c = '-'
    · have hd : d ≠ '\\' := by
        rintro rfl
        rw [hhyphen] at hbreaks
        cases hbreaks
      simpa [startsName, hhyphen, startsEscape_of_ne hd] using h
    · simpa [startsName, hhyphen, startsEscape_cons] using h
  · simpa [startsName, startsEscape_cons] using h

/-- An escape that takes the white space character behind its digits is read without that character
in front of an ending. -/
theorem readEscape_of_ends (hother : Ends other) {text : List Char} {c gap : Char}
    (htext : text ≠ []) (hgap : isSpace gap) (h : readEscape (text ++ gap :: rest) = (c, rest)) :
    readEscape (text ++ other) = (c, other) := by
  obtain ⟨e, text, rfl⟩ := List.exists_cons_of_ne_nil htext
  obtain @⟨d, other, hd, -⟩ := hother
  have hclass : endings.all (fun c => !isHexDigit c && !isSpace c) := by decide
  have hending := List.all_eq_true.mp hclass d hd
  simp only [Bool.and_eq_true, Bool.not_eq_true'] at hending
  have hgaphex : isHexDigit gap = false := by
    simp only [isSpace, decide_eq_true_eq] at hgap
    rcases hgap with rfl | rfl | rfl <;> rfl
  have hread : readEscape (e :: (text ++ [gap]) ++ rest) = (c, rest) := by
    rw [← h]
    simp
  by_cases he : isHexDigit e
  · obtain ⟨n, hn, hlength, hdrop⟩ := hexDigits_of_readEscape he hread
    rw [List.cons_append, List.append_assoc, List.singleton_append, ← List.cons_append] at hn
    have hlength' : n = (e :: text).length := by
      rcases eq_of_dropSpace hdrop with ⟨hnil, -⟩ | ⟨c, hc, -⟩
      · have hall : (e :: text).length + 1 = n := by
          have hle := List.drop_eq_nil_iff.mp hnil
          simp only [List.length_cons, List.length_append, List.length_nil] at hle hlength ⊢
          omega
        have hfront := (List.takeWhile_prefix isHexDigit
          (l := (e :: text ++ gap :: rest).take 6)).trans (List.take_prefix 6 _)
        have htake := List.prefix_iff_eq_take.mp hfront
        rw [hn, ← hall, List.take_length_add_append] at htake
        have hmem : gap ∈ ((e :: text ++ gap :: rest).take 6).takeWhile isHexDigit := by
          rw [htake]
          simp
        rw [List.mem_takeWhile_imp hmem] at hgaphex
        cases hgaphex
      · have hlen := congrArg List.length hc
        simp only [List.length_drop, List.length_cons, List.length_append,
          List.length_nil] at hlen ⊢
        omega
    have hother : (d :: other).head?.any isHexDigit = false := by simp [hending.1]
    have htake := takeWhile_take_append _ 6 (fun _ => hother) (hn.trans_le hlength'.le)
    rw [List.cons_append] at h ⊢
    simp only [readEscape, he, if_true, ← List.cons_append, htake, hn] at h ⊢
    rw [hlength', List.drop_left, (Prod.mk.inj h).1]
    simp [dropSpace, hending.2]
  · simp only [List.cons_append, readEscape, he] at hread
    have hnil := List.append_left_eq_self.mp (Prod.mk.inj hread).2
    simp at hnil

/-- A name that ends with an escape and the white space character that ends it is read without that
character in front of an ending. -/
theorem readName_of_ends (hother : Ends other) {text name : List Char} {gap : Char}
    (hgap : isSpace gap) (hbreaks : breaksOff text = false)
    (h : readName (text ++ gap :: rest) = (name, rest)) :
    readName (text ++ other) = (name, other) := by
  have hstops : StopsName other := (show Follows [] other from .ending hother).stopsName ⟨rfl, rfl⟩
  have hends (left : List Char) : EndsEscape (gap :: left) other := by
    have hfollows : Follows (gap :: left) other := .ending hother
    exact ⟨hfollows.endsEscape.hex, fun h => by simp [hgap] at h⟩
  generalize hs : text ++ gap :: rest = s at h
  fun_induction readName s generalizing text name with
  | case1 => simp at hs
  | case2 c tail hc found left hread ih =>
      obtain ⟨rfl, rfl⟩ := Prod.mk.inj h
      cases text with
      | nil =>
          obtain ⟨rfl, -⟩ := List.cons.inj hs
          have hspace : isSpace gap = false := by
            simp only [isSpace, decide_eq_false_iff_not]
            rintro (rfl | rfl | rfl) <;> cases hc
          rw [hgap] at hspace
          cases hspace
      | cons e text =>
          obtain ⟨rfl, htext⟩ := List.cons.inj hs
          have hne : e ≠ '\\' := by
            rintro rfl
            cases hc
          rw [breaksOff_cons hne] at hbreaks
          rw [List.cons_append, readName, if_pos hc, ih hbreaks htext hread]
  | case3 c tail hc hescape found left hread ih =>
      obtain ⟨rfl, rfl⟩ := Prod.mk.inj h
      obtain rfl : c = '\\' := by
        rw [startsEscape_cons, Bool.and_eq_true, beq_iff_eq] at hescape
        exact hescape.1
      have hsuffix : left <:+ (readEscape tail).2 := by
        have hleft := readName_suffix (readEscape tail).2
        rwa [hread] at hleft
      rcases text with _ | ⟨b, _ | ⟨e, text⟩⟩
      · obtain ⟨rfl, -⟩ := List.cons.inj hs
        cases hgap
      · obtain ⟨rfl, -⟩ := List.cons.inj hs
        cases hbreaks
      obtain ⟨rfl, htail⟩ : b = '\\' ∧ (e :: text ++ [gap]) ++ left = tail := by simpa using hs
      subst htail
      have hstart : startsEscape ('\\' :: (e :: text ++ other)) := by
        rw [startsEscape_cons] at hescape ⊢
        exact hescape
      obtain ⟨b, front, mid, hfront, htake⟩ := exists_readEscape (by simp) hsuffix
      have hleft : (readEscape (e :: text ++ [gap] ++ left)).2 = mid ++ left := by
        rw [hfront, List.append_assoc, htake]
      rw [hleft] at hread ih
      rcases List.eq_nil_or_concat' mid with rfl | ⟨mid, gap', rfl⟩
      · -- the escape takes the white space character
        rw [List.nil_append] at hread hleft
        have hwhole : readEscape (e :: text ++ gap :: left) =
            ((readEscape (e :: text ++ [gap] ++ left)).1, left) := by
          rw [show e :: text ++ gap :: left = e :: text ++ [gap] ++ left by simp]
          exact Prod.ext rfl hleft
        have hleftstops := stopsName_readName left
        rw [hread] at hleftstops
        rw [hleftstops.readName] at hread
        rw [List.cons_append, readName, if_neg hc, if_pos hstart,
          readEscape_of_ends hother (List.cons_ne_nil e text) hgap hwhole, ← (Prod.mk.inj hread).1]
        dsimp only
        rw [hstops.readName]
      · obtain ⟨htext, hgaps⟩ : e :: text = b :: front ++ mid ∧ gap = gap' := by
          rw [← List.append_assoc] at hfront
          simpa using List.append_inj' hfront rfl
        subst hgaps
        rw [htext] at hbreaks
        rw [List.append_assoc, List.singleton_append] at htake hread ih
        have hmid := breaksOff_append (not_mem_of_readEscape htake) mid
        rw [List.cons_append, breaksOff_escape, hmid] at hbreaks
        have hother := readEscape_of_endsEscape ((hends left).append mid)
          (List.cons_ne_nil b front) htake
        rw [← List.append_assoc, ← htext] at hother
        rw [List.cons_append, readName, if_neg hc, if_pos hstart, hother]
        dsimp only
        rw [ih hbreaks rfl hread]
  | case4 c tail hc hescape =>
      obtain ⟨rfl, htail⟩ := Prod.mk.inj h
      rw [← hs] at htail
      exact absurd (congrArg List.length htail) (by simp; omega)

/-- An escape that ends in front of a text is read in front of what follows in its place, if
something of the text stays behind the escape or the escape ends in front of the other text as
well. -/
theorem exists_readEscape_append {text : List Char} (hne : text ++ rest ≠ [])
    (h : rest <:+ (readEscape (text ++ rest)).2) :
    ∃ d front mid, text = d :: front ++ mid ∧ (readEscape (text ++ rest)).2 = mid ++ rest ∧
      ∀ other, (mid = [] → EndsEscape rest other) →
        readEscape (text ++ other) = ((readEscape (text ++ rest)).1, mid ++ other) := by
  obtain ⟨d, front, mid, htext, htake⟩ := exists_readEscape hne h
  refine ⟨d, front, mid, htext, ?_, fun other hother => ?_⟩
  · have hleft := congrArg Prod.snd htake
    rwa [← List.append_assoc, ← htext] at hleft
  · have hends : EndsEscape (mid ++ rest) (mid ++ other) := by
      by_cases hmid : mid = []
      · exact (hother hmid).append mid
      · exact endsEscape_append hmid rest other
    have hread := readEscape_of_endsEscape hends (List.cons_ne_nil d front) htake
    rwa [← List.append_assoc, ← htext] at hread

/-- An escape that ends in front of a line break ends in front of every line break. -/
theorem endsEscape_line (h : rest.head? = some '\n') (h' : other.head? = some '\n') :
    EndsEscape rest other := by
  refine ⟨fun _ => ?_, fun hspace => ?_⟩
  · rw [h']
    rfl
  · rw [h] at hspace
    cases hspace

/-- A closed string takes its closing mark. -/
theorem exists_readString_closed {quote : Char} {s : List Char}
    (h : (readString quote s).2.1 = .closed) :
    ∃ front, s = front ++ quote :: (readString quote s).2.2 := by
  fun_induction readString quote s with
  | case1 | case3 | case4 => cases h
  | case2 tail => exact ⟨[], rfl⟩
  | case5 tail _ _ ih =>
      obtain ⟨front, hfront⟩ := ih h
      exact ⟨'\\' :: '\n' :: front, congrArg (fun tail => '\\' :: '\n' :: tail) hfront⟩
  | case6 d tail _ value ending after hread _ _ ih =>
      rw [hread] at ih
      obtain ⟨front, hfront⟩ := ih h
      obtain ⟨lead, hlead⟩ := readEscape_suffix (d :: tail)
      refine ⟨'\\' :: (lead ++ front), ?_⟩
      rw [List.cons_append, List.append_assoc, ← hfront, hlead]
  | case7 c tail _ _ _ value ending after hread ih =>
      rw [hread] at ih
      obtain ⟨front, hfront⟩ := ih h
      exact ⟨c :: front, congrArg (c :: ·) hfront⟩

/-- A broken string has its line break behind it. -/
theorem head?_readString_broken {quote : Char} {s : List Char}
    (h : (readString quote s).2.1 = .broken) : (readString quote s).2.2.head? = some '\n' := by
  fun_induction readString quote s with
  | case1 | case2 | case4 => cases h
  | case3 => rfl
  | case5 tail _ _ ih => exact ih h
  | case6 d tail _ value ending after hread _ _ ih =>
      rw [hread] at ih
      exact ih h
  | case7 c tail _ _ _ value ending after hread ih =>
      rw [hread] at ih
      exact ih h

/-- A line break that is escaped is no part of a string. -/
theorem readString_line {quote : Char} (hquote : quote ≠ '\\') (text : List Char) :
    readString quote ('\\' :: '\n' :: text) = readString quote text := by
  rw [readString.eq_def]
  simp [hquote.symm]

/-- A closed string is read in front of everything, a broken one in front of every line break. -/
theorem readString_of_ended {quote : Char} {text value : List Char} {ending : Ending}
    (h : readString quote (text ++ rest) = (value, ending, rest))
    (hended : ending = .closed ∨ ending = .broken ∧ other.head? = some '\n') :
    readString quote (text ++ other) = (value, ending, other) := by
  generalize hs : text ++ rest = s at h
  fun_induction readString quote s generalizing text value with
  | case1 | case4 =>
      obtain ⟨-, rfl, -⟩ := by simpa using h
      simp at hended
  | case2 tail =>
      obtain ⟨rfl, rfl, rfl⟩ := by simpa using h
      obtain ⟨text, rfl, htext⟩ := exists_cons_of_append hs List.suffix_rfl
      rw [List.append_left_eq_self.mp htext, List.singleton_append, readString.eq_def]
      simp
  | case3 tail hquote =>
      obtain ⟨rfl, rfl, rfl⟩ := by simpa using h
      obtain rfl : text = [] := List.append_left_eq_self.mp hs
      obtain ⟨other, rfl⟩ : ∃ tail, other = '\n' :: tail := by
        simpa [List.head?_eq_some_iff] using hended
      rw [List.nil_append, readString.eq_def]
      simp [hquote]
  | case5 tail hquote hline ih =>
      have hsuffix : rest <:+ tail := by
        have hleft := readString_suffix quote tail
        rwa [h] at hleft
      obtain ⟨text, rfl, htext⟩ := exists_cons_of_append hs
        (hsuffix.trans (List.suffix_cons '\n' tail))
      obtain ⟨text, rfl, htail⟩ := exists_cons_of_append htext hsuffix
      rw [List.cons_append, List.cons_append, readString_line (Ne.symm hquote)]
      exact ih htail h
  | case6 d tail hd found ending' left hread hquote hline ih =>
      obtain ⟨rfl, rfl, rfl⟩ := by simpa using h
      have hsuffix : left <:+ (readEscape (d :: tail)).2 := by
        have hleft := readString_suffix quote (readEscape (d :: tail)).2
        rwa [hread] at hleft
      obtain ⟨text, rfl, htext⟩ := exists_cons_of_append hs
        (hsuffix.trans (readEscape_suffix (d :: tail)))
      rw [← htext] at hsuffix hread ih
      obtain ⟨e, front, mid, hsplit, hmid, hother⟩ :=
        exists_readEscape_append (by simp [htext]) hsuffix
      obtain rfl : e = d := by
        rw [hsplit] at htext
        exact (List.cons.inj htext).1
      -- nothing may stand behind the escape only if a line break follows it
      have hends : mid = [] → EndsEscape left other := by
        rintro rfl
        rw [hmid, List.nil_append] at hread
        rcases hended with rfl | ⟨rfl, hother⟩
        · obtain ⟨front, hfront⟩ := exists_readString_closed (by rw [hread])
          rw [hread] at hfront
          exact absurd (congrArg List.length hfront) (by simp; omega)
        · have hleft := head?_readString_broken (by rw [hread])
          rw [hread] at hleft
          exact endsEscape_line hleft hother
      replace hother := hother other hends
      rw [hsplit, List.cons_append, List.cons_append] at hother
      rw [hsplit, List.cons_append, List.cons_append, List.cons_append,
        readString_escape (Ne.symm hquote) hd, hother]
      dsimp only
      rw [ih hmid.symm hread, ← htext, hsplit]
      rfl
  | case7 c tail hquote hline hescape found ending' left hread ih =>
      obtain ⟨rfl, rfl, rfl⟩ := by simpa using h
      have hsuffix : left <:+ tail := by
        have hleft := readString_suffix quote tail
        rwa [hread] at hleft
      obtain ⟨text, rfl, htext⟩ := exists_cons_of_append hs hsuffix
      rw [List.cons_append, readString_plain hquote hline hescape, ih htext hread]

/-- A closed comment has some text. -/
theorem readComment_ne_nil {text body after : List Char}
    (h : readComment text = (body, true, after)) : body ≠ [] := by
  rintro rfl
  unfold readComment at h
  split at h <;> simp at h

/-- A closed comment is read in front of everything. -/
theorem readComment_of_closed {text body : List Char}
    (h : readComment (text ++ rest) = (body, true, rest)) (other : List Char) :
    readComment (text ++ other) = (body, true, other) := by
  have happend := readComment_append (text ++ rest)
  rw [h] at happend
  obtain rfl : body = text := List.append_cancel_right happend
  clear happend
  generalize hs : body ++ rest = s at h
  fun_induction readComment s generalizing body with
  | case1 => cases h
  | case2 tail =>
      obtain ⟨rfl, -, -⟩ := by simpa using h
      rfl
  | case3 c tail hopen found closed left hread ih =>
      obtain ⟨rfl, rfl, rfl⟩ := by simpa using h
      have htail : found ++ left = tail := (List.cons.inj hs).2
      have hother := ih htail hread
      rw [List.cons_append, readComment, hother]
      rintro tail rfl hslash
      cases found with
      | nil => exact readComment_ne_nil hread rfl
      | cons d found =>
          obtain ⟨rfl, -⟩ := List.cons.inj hslash
          exact hopen (found ++ left) rfl htail.symm

/-- A closed comment takes its closing mark. -/
theorem exists_readComment_closed {s text after : List Char}
    (h : readComment s = (text, true, after)) : ∃ front, text = front ++ ['/'] := by
  fun_induction readComment s generalizing text with
  | case1 => cases h
  | case2 tail =>
      obtain ⟨rfl, -⟩ := Prod.mk.inj h
      exact ⟨['*'], rfl⟩
  | case3 c tail _ found closed left hread ih =>
      obtain ⟨rfl, rfl, rfl⟩ := by simpa using h
      obtain ⟨front, rfl⟩ := ih hread
      exact ⟨c :: front, rfl⟩

/-- A broken address with something behind it takes its closing bracket. -/
theorem exists_afterBrokenUrl {s : List Char} (h : afterBrokenUrl s ≠ []) :
    ∃ front, s = front ++ ')' :: afterBrokenUrl s := by
  fun_induction afterBrokenUrl s with
  | case1 => exact absurd rfl h
  | case2 tail => exact ⟨[], rfl⟩
  | case3 c tail _ _ ih =>
      obtain ⟨front, hfront⟩ := ih h
      obtain ⟨lead, hlead⟩ := readEscape_suffix tail
      refine ⟨c :: (lead ++ front), ?_⟩
      rw [List.cons_append, List.append_assoc, ← hfront, hlead]
  | case4 c tail _ _ ih =>
      obtain ⟨front, hfront⟩ := ih h
      exact ⟨c :: front, congrArg (c :: ·) hfront⟩

/-- The rest of a broken address takes something if something follows it. -/
theorem ne_nil_of_afterBrokenUrl {text : List Char} (h : afterBrokenUrl (text ++ rest) = rest)
    (hrest : rest ≠ []) : text ≠ [] := by
  rintro rfl
  rw [List.nil_append] at h
  obtain ⟨front, hfront⟩ := exists_afterBrokenUrl (h ▸ hrest)
  rw [h] at hfront
  have hlength := congrArg List.length hfront
  rw [List.length_append, List.length_cons] at hlength
  omega

/-- Where a broken address with something behind it ends, it ends whatever follows. -/
theorem afterBrokenUrl_append {text : List Char} (h : afterBrokenUrl (text ++ rest) = rest)
    (hrest : rest ≠ []) (other : List Char) : afterBrokenUrl (text ++ other) = other := by
  generalize hs : text ++ rest = s at h
  fun_induction afterBrokenUrl s generalizing text with
  | case1 => exact absurd h.symm hrest
  | case2 tail =>
      subst h
      obtain ⟨text, rfl, htext⟩ := exists_cons_of_append hs List.suffix_rfl
      rw [List.append_left_eq_self.mp htext, List.singleton_append, afterBrokenUrl.eq_def]
      simp
  | case3 c tail hbracket hescape ih =>
      have hsuffix : rest <:+ (readEscape tail).2 := by
        have hleft := afterBrokenUrl_suffix (readEscape tail).2
        rwa [h] at hleft
      obtain ⟨text, rfl, rfl⟩ := exists_cons_of_append hs (hsuffix.trans (readEscape_suffix tail))
      have hne : text ++ rest ≠ [] := List.append_ne_nil_of_right_ne_nil text hrest
      obtain ⟨e, front, mid, hsplit, hmid, hother⟩ := exists_readEscape_append hne hsuffix
      have hends : mid = [] → EndsEscape rest other := by
        rintro rfl
        rw [hmid] at h
        exact absurd rfl (ne_nil_of_afterBrokenUrl h hrest)
      have hstart : startsEscape (c :: (text ++ other)) := by
        rw [startsEscape_cons, hsplit] at hescape ⊢
        exact hescape
      rw [List.cons_append, afterBrokenUrl, if_neg hbracket, if_pos hstart, hother other hends]
      exact ih hmid.symm h
  | case4 c tail hbracket hescape ih =>
      have hsuffix : rest <:+ tail := by
        have hleft := afterBrokenUrl_suffix tail
        rwa [h] at hleft
      obtain ⟨text, rfl, rfl⟩ := exists_cons_of_append hs hsuffix
      have hne := ne_nil_of_afterBrokenUrl h hrest
      have hstart : ¬startsEscape (c :: (text ++ other)) := by
        rw [startsEscape_cons, List.head?_append_of_ne_nil _ hne] at hescape ⊢
        exact hescape
      rw [List.cons_append, afterBrokenUrl, if_neg hbracket, if_neg hstart]
      exact ih rfl h

/-- The broken part of an address, which starts behind a part of its text and has something behind
it, is some text that is passed whatever follows. -/
theorem exists_brokenPart {text lead tail : List Char} (hs : text ++ rest = lead ++ tail)
    (h : afterBrokenUrl tail = rest) (hrest : rest ≠ []) :
    ∃ front, text = lead ++ front ∧ front ++ rest = tail ∧ front ≠ [] ∧
      ∀ other, afterBrokenUrl (front ++ other) = other := by
  obtain ⟨front, rfl⟩ : rest <:+ tail := h ▸ afterBrokenUrl_suffix tail
  have htext : text = lead ++ front := by
    refine List.append_cancel_right (?_ : _ ++ rest = _)
    rw [hs, List.append_assoc]
  exact ⟨front, htext, rfl, ne_nil_of_afterBrokenUrl h hrest, afterBrokenUrl_append h hrest⟩

/-- An address that is closed, or that is broken and has something behind it, takes its closing
bracket. -/
theorem exists_readUrl_ended {s address after : List Char} {ending : Ending}
    (h : readUrl s = (address, ending, after))
    (hended : ending = .closed ∨ ending = .broken ∧ after ≠ []) :
    ∃ front, s = front ++ ')' :: after := by
  fun_induction readUrl s generalizing address with
  | case1 | case3 =>
      obtain ⟨-, rfl, -⟩ := by simpa using h
      simp at hended
  | case2 tail =>
      obtain ⟨-, -, rfl⟩ := by simpa using h
      exact ⟨[], rfl⟩
  | case4 c tail _ _ left hdrop =>
      obtain ⟨-, -, rfl⟩ := by simpa using h
      refine ⟨c :: tail.takeWhile isSpace, ?_⟩
      rw [List.cons_append, ← hdrop, List.takeWhile_append_dropWhile]
  | case5 c tail _ _ d left hdrop _ =>
      obtain ⟨-, rfl, rfl⟩ := by simpa using h
      obtain ⟨front, hfront⟩ := exists_afterBrokenUrl (by simpa using hended)
      refine ⟨c :: (tail.takeWhile isSpace ++ front), ?_⟩
      rw [List.cons_append, List.append_assoc, ← hfront, ← hdrop, List.takeWhile_append_dropWhile]
  | case6 c tail | case8 tail =>
      obtain ⟨-, rfl, rfl⟩ := by simpa using h
      obtain ⟨front, hfront⟩ := exists_afterBrokenUrl (by simpa using hended)
      exact ⟨_ :: front, congrArg (_ :: ·) hfront⟩
  | case7 tail found ending' left hread _ _ _ _ ih =>
      obtain ⟨-, rfl, rfl⟩ := by simpa using h
      obtain ⟨front, hfront⟩ := ih hread
      obtain ⟨lead, hlead⟩ := readEscape_suffix tail
      refine ⟨'\\' :: (lead ++ front), ?_⟩
      rw [List.cons_append, List.append_assoc, ← hfront, hlead]
  | case9 c tail _ _ _ _ found ending' left hread ih =>
      obtain ⟨-, rfl, rfl⟩ := by simpa using h
      obtain ⟨front, hfront⟩ := ih hread
      exact ⟨c :: front, congrArg (c :: ·) hfront⟩

/-- White space in front of a character that is none ends there. -/
theorem dropWhile_takeWhile_append (s : List Char) {c : Char} (hc : isSpace c = false)
    (other : List Char) : (s.takeWhile isSpace ++ c :: other).dropWhile isSpace = c :: other := by
  rw [List.dropWhile_append_of_pos fun d hd => List.mem_takeWhile_imp hd,
    List.dropWhile_cons_of_neg (by simp [hc])]

/-- An address that is closed, or that is broken and has something behind it, is read in front of
everything. -/
theorem readUrl_of_ended {text address : List Char} {ending : Ending}
    (h : readUrl (text ++ rest) = (address, ending, rest))
    (hended : ending = .closed ∨ ending = .broken ∧ rest ≠ []) (other : List Char) :
    readUrl (text ++ other) = (address, ending, other) := by
  generalize hs : text ++ rest = s at h
  fun_induction readUrl s generalizing text address with
  | case1 | case3 =>
      obtain ⟨-, rfl, -⟩ := by simpa using h
      simp at hended
  | case2 tail =>
      obtain ⟨rfl, rfl, rfl⟩ := by simpa using h
      obtain ⟨text, rfl, htext⟩ := exists_cons_of_append hs List.suffix_rfl
      rw [List.append_left_eq_self.mp htext, List.singleton_append, readUrl.eq_def]
      simp
  | case4 c tail hbracket hspace left hdrop =>
      obtain ⟨rfl, rfl, rfl⟩ := by simpa using h
      have htail : tail.takeWhile isSpace ++ ')' :: left = tail := by
        rw [← hdrop, List.takeWhile_append_dropWhile]
      have htext : text = c :: (tail.takeWhile isSpace ++ [')']) := by
        refine List.append_cancel_right (?_ : _ ++ left = _)
        rw [hs, List.cons_append, List.append_assoc, List.singleton_append, htail]
      have hdropped := dropWhile_takeWhile_append tail (show isSpace ')' = false from rfl) other
      rw [htext, List.cons_append, List.append_assoc, List.singleton_append, readUrl.eq_def]
      simp [hbracket, hspace, hdropped]
  | case5 c tail hbracket hspace d left hdrop hd =>
      obtain ⟨rfl, rfl, hleft⟩ := by simpa using h
      have hdspace : isSpace d = false := by
        have hhead := List.head?_dropWhile_not isSpace tail
        rw [hdrop] at hhead
        simpa using hhead
      -- the broken part starts behind the white space
      have hlead : text ++ rest = (c :: tail.takeWhile isSpace) ++ d :: left := by
        rw [hs, List.cons_append, ← hdrop, List.takeWhile_append_dropWhile]
      obtain ⟨front, rfl, hfront, hne, hpassed⟩ :=
        exists_brokenPart hlead hleft (by simpa using hended)
      cases front with
      | nil => exact absurd rfl hne
      | cons e front =>
          obtain rfl : e = d := (List.cons.inj hfront).1
          have hdropped := dropWhile_takeWhile_append tail hdspace (front ++ other)
          have hother := hpassed other
          rw [List.cons_append, List.cons_append, List.append_assoc, List.cons_append,
            readUrl.eq_def]
          rw [List.cons_append] at hother
          simp [hbracket, hspace, hdropped, hd, hother]
  | case6 c tail hbracket hspace hbroken =>
      obtain ⟨rfl, rfl, hleft⟩ := by simpa using h
      have hlead : text ++ rest = [c] ++ tail := hs
      obtain ⟨front, rfl, -, -, hpassed⟩ :=
        exists_brokenPart hlead hleft (by simpa using hended)
      rw [List.append_assoc, List.singleton_append, readUrl.eq_def]
      simp only [hbracket, hspace, hbroken, hpassed other, if_false, if_true]
      rfl
  | case7 tail found ending' left hread hbracket hspace hbroken hescape ih =>
      obtain ⟨rfl, rfl, rfl⟩ := by simpa using h
      have hsuffix : left <:+ (readEscape tail).2 := by
        have hleft := readUrl_suffix (readEscape tail).2
        rwa [hread] at hleft
      obtain ⟨text, rfl, rfl⟩ := exists_cons_of_append hs
        (hsuffix.trans (readEscape_suffix tail))
      obtain ⟨lead, hlead⟩ := exists_readUrl_ended hread hended
      have htail : text ++ left ≠ [] := by
        intro hnil
        rw [hnil] at hlead
        simp [readEscape] at hlead
      obtain ⟨e, front, mid, hsplit, hmid, hother⟩ := exists_readEscape_append htail hsuffix
      -- the closing bracket is still behind the escape, so the escape does not reach `left`
      have hends : mid = [] → EndsEscape left other := by
        rintro rfl
        rw [hmid] at hlead
        exact absurd (congrArg List.length hlead) (by simp; omega)
      have hstart : startsEscape ('\\' :: (text ++ other)) := by
        rw [startsEscape_cons, hsplit] at hescape ⊢
        exact hescape
      rw [List.cons_append, readUrl.eq_def]
      simp only [hbracket, hspace, hbroken, hstart, hother other hends, if_false, if_true,
        ih hmid.symm hread]
      rfl
  | case8 tail hbracket hspace hbroken hescape =>
      obtain ⟨rfl, rfl, hleft⟩ := by simpa using h
      have hlead : text ++ rest = ['\\'] ++ tail := hs
      obtain ⟨front, rfl, rfl, hne, hpassed⟩ :=
        exists_brokenPart hlead hleft (by simpa using hended)
      have hstart : ¬startsEscape ('\\' :: (front ++ other)) := by
        rw [startsEscape_cons, List.head?_append_of_ne_nil _ hne] at hescape ⊢
        exact hescape
      rw [List.append_assoc, List.singleton_append, readUrl.eq_def]
      simp only [hbracket, hspace, hbroken, hstart, hpassed other, if_false, if_true]
      rfl
  | case9 c tail hbracket hspace hbroken hescape found ending' left hread ih =>
      obtain ⟨rfl, rfl, rfl⟩ := by simpa using h
      have hsuffix : left <:+ tail := by
        have hleft := readUrl_suffix tail
        rwa [hread] at hleft
      obtain ⟨text, rfl, htext⟩ := exists_cons_of_append hs hsuffix
      rw [List.cons_append, readUrl.eq_def]
      simp only [hbracket, hspace, hbroken, hescape, if_false, ih htext hread]
      rfl

end Css
