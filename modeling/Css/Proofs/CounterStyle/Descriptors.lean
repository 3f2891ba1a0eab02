import Css.Proofs.CounterStyle.RoundTrip
import Css.Proofs.Declaration.Items

/-!
# The last descriptor of each name

In the block of a counter style, the last declaration of each descriptor is the one that counts. If
all of its declarations can be read, a block makes up the counter style with these descriptors and
no others, and it is refused only if this counter style does not have the symbols that it needs. So
blocks with the same last descriptors are read alike, `CounterStyle.bodyParser_lastNamed`.
-/

namespace Css

open Css.Parser
open Component (entries)

namespace Descriptor

/-- The value of a descriptor is read as a descriptor with its name. -/
theorem parser_name {context : Context} {name : DescriptorName} {c after : Cursor}
    {d : Descriptor} (h : name.parser context c = .ok d after) : d.name = name := by
  cases name with
  | _ =>
      obtain ⟨value, -, rfl⟩ := map_eq_ok_iff.mp h
      rfl

/-- The segment declares the descriptor: it is the name of the descriptor in whatever case, a colon,
and a value that is read to the end. -/
def Declared (context : Context) (stop : Position) (d : Descriptor) (segment : Segment) : Prop :=
  Named (fun name d rest => Text.lowerCase name = Vocabulary.word d.name ∧
    IsRead (fun _ => d.name.parser context) (segment.stop stop) name d rest) d segment.contents

end Descriptor

open Descriptor (lastNamed Declared)

namespace CounterStyle

variable {context : Context} {name : CounterStyleName} {c : Cursor} {descriptors : List Descriptor}

/-- Descriptors are read behind their names, in whatever case. -/
theorem isRead_descriptor_iff {stop : Position} {name : String} {d : Descriptor}
    {rest : List Component} :
    IsRead (descriptor context) stop name d rest ↔
      Text.lowerCase name = Vocabulary.word d.name ∧
        IsRead (fun _ => d.name.parser context) stop name d rest := by
  unfold IsRead descriptor
  cases hfind : Vocabulary.find? DescriptorName (Text.lowerCase name) with
  | none =>
      -- behind the colon of an unknown name nothing is read
      constructor
      · rintro ⟨last, h⟩
        obtain ⟨mid, hmid, -⟩ := entirely_eq_ok_iff.mp h
        obtain ⟨u, first, -, hfault⟩ := bind_eq_ok.mp hmid
        cases hfault
      · rintro ⟨hname, -⟩
        rw [hname, Vocabulary.find?_word] at hfind
        cases hfind
  | some known =>
      have hword := Vocabulary.word_of_find? hfind
      constructor
      · rintro ⟨last, h⟩
        obtain ⟨mid, hmid, -⟩ := entirely_eq_ok_iff.mp h
        obtain ⟨u, first, -, hvalue⟩ := bind_eq_ok.mp hmid
        obtain rfl := Descriptor.parser_name hvalue
        exact ⟨hword.symm, last, h⟩
      · rintro ⟨hname, h⟩
        obtain rfl : known = d.name := Vocabulary.word_inj.mp (hword.trans hname)
        exact h

/-- The declarations in the block are those of the descriptors, in order. -/
def Declares (context : Context) (c : Cursor) (descriptors : List Descriptor) : Prop :=
  List.Forall₂ (fun segment d => Declared context c.stop d segment) (entries c.rest) descriptors

/-- The descriptors of a block are read where it declares them. -/
theorem declares_iff : Declares context c descriptors ↔
    ∃ after, declarationList (descriptor context) c = .ok descriptors after := by
  have hread (stop : Position) : IsRead (descriptor context) stop = fun name d rest =>
      Text.lowerCase name = Vocabulary.word d.name ∧
        IsRead (fun _ => d.name.parser context) stop name d rest := by
    funext name d rest
    exact propext isRead_descriptor_iff
  rw [declarationList_eq_ok_iff_isRead]
  simp only [hread]
  rfl

/-- A block that declares descriptors is read as the counter style that they make up, unless there
is a fault in it. -/
theorem Declares.bodyParser (h : Declares (context.inRule .counterStyle) c descriptors)
    (name : CounterStyleName) : ∃ after,
    bodyParser context name c =
      match (descriptors.foldl set (ofName name)).symbolFault? with
      | some found => .error ⟨found, c.location⟩ after
      | none => .ok (descriptors.foldl set (ofName name)) after := by
  obtain ⟨after, hlist⟩ := declares_iff.mp h
  refine ⟨after, (bind_of_ok rfl).trans ((bind_of_ok hlist).trans ?_)⟩
  cases (descriptors.foldl set (ofName name)).symbolFault? <;> rfl

/-- Descriptors with the same last ones make up the same counter style. -/
theorem foldl_set_eq_of_lastNamed {others : List Descriptor}
    (h : ∀ n, lastNamed others n = lastNamed descriptors n) (name : CounterStyleName) :
    others.foldl set (ofName name) = descriptors.foldl set (ofName name) := by
  refine eq_of_descriptor? ?_ fun n => ?_
  · rw [name_foldl_set, name_foldl_set]
  · rw [descriptor?_foldl_ofName, descriptor?_foldl_ofName, h]

/-- A block whose declarations are those of descriptors makes up the counter style that has the last
one of each name and no others. It is accepted, as this counter style, if and only if the symbols
are there that the system of it needs, and the fault in it is reported otherwise. So two blocks with
the same last descriptors are accepted as the same counter style or refused with the same fault. -/
theorem bodyParser_lastNamed (h : Declares (context.inRule .counterStyle) c descriptors) :
    ∃ style, style.name = name ∧ (∀ n, style.descriptor? n = lastNamed descriptors n) ∧
      ((∃ s after, bodyParser context name c = .ok s after) ↔ style.HasSymbols) ∧
      (∀ s after, bodyParser context name c = .ok s after → s = style) ∧
      (∀ e after, bodyParser context name c = .error e after →
        style.symbolFault? = some e.fault ∧ e.location = c.location) ∧
      ∀ (other : Cursor) (others : List Descriptor),
        Declares (context.inRule .counterStyle) other others →
        (∀ n, lastNamed others n = lastNamed descriptors n) →
        (∃ s after after', bodyParser context name c = .ok s after ∧
            bodyParser context name other = .ok s after') ∨
          ∃ fault after after', bodyParser context name c = .error ⟨fault, c.location⟩ after ∧
            bodyParser context name other = .error ⟨fault, other.location⟩ after' := by
  obtain ⟨after, hbody⟩ := h.bodyParser name
  refine ⟨descriptors.foldl set (ofName name), name_foldl_set _ _, descriptor?_foldl_ofName _ _, ?_⟩
  -- the counter style is the same for both blocks, so its fault decides about both
  rw [← symbolFault?_eq_none_iff]
  cases hfault : (descriptors.foldl set (ofName name)).symbolFault? with
  | none =>
      rw [hfault] at hbody
      dsimp only at hbody
      refine ⟨iff_of_true ⟨_, after, hbody⟩ rfl, fun s last hs => ?_, fun e last he => ?_,
        fun other others hothers hlast => .inl ?_⟩
      · cases hbody.symm.trans hs
        rfl
      · cases hbody.symm.trans he
      · obtain ⟨after', hother⟩ := hothers.bodyParser name
        rw [foldl_set_eq_of_lastNamed hlast, hfault] at hother
        exact ⟨_, after, after', hbody, hother⟩
  | some found =>
      rw [hfault] at hbody
      dsimp only at hbody
      refine ⟨iff_of_false ?_ nofun, fun s last hs => ?_, fun e last he => ?_,
        fun other others hothers hlast => .inr ?_⟩
      · rintro ⟨s, last, hs⟩
        cases hbody.symm.trans hs
      · cases hbody.symm.trans hs
      · cases hbody.symm.trans he
        exact ⟨rfl, rfl⟩
      · obtain ⟨after', hother⟩ := hothers.bodyParser name
        rw [foldl_set_eq_of_lastNamed hlast, hfault] at hother
        exact ⟨found, after, after', hbody, hother⟩

/-- Descriptors in mixed case, one of them twice, and the same ones in another order. -/
theorem bodyParser_lastNamed_order : ∃ c other s after after',
    Cursor.ofText "SYSTEM:numeric;symbols:a;prefix:x;;Symbols:b 'c'" = .ok c ∧
      Cursor.ofText "symbols:b 'c';prefix:x;system:Numeric;" = .ok other ∧
      bodyParser (.ofMode .strict) ⟨"x"⟩ c = .ok s after ∧
      bodyParser (.ofMode .strict) ⟨"x"⟩ other = .ok s after' ∧ s.name = ⟨"x"⟩ ∧
      s.symbols = some ⟨[.ident "b", .string "c"]⟩ ∧ s.HasSymbols := by
  obtain ⟨c, other, hc, hother, ⟨after, hread⟩, ⟨after', hreadOther⟩⟩ : ∃ c other,
      Cursor.ofText "SYSTEM:numeric;symbols:a;prefix:x;;Symbols:b 'c'" = .ok c ∧
      Cursor.ofText "symbols:b 'c';prefix:x;system:Numeric;" = .ok other ∧
      (∃ after, declarationList (descriptor ((Context.ofMode .strict).inRule .counterStyle)) c =
        .ok [.system .numeric, .symbols ⟨[.ident "a"]⟩, .leading (.ident "x"),
          .symbols ⟨[.ident "b", .string "c"]⟩] after) ∧
      ∃ after, declarationList (descriptor ((Context.ofMode .strict).inRule .counterStyle)) other =
        .ok [.symbols ⟨[.ident "b", .string "c"]⟩, .leading (.ident "x"), .system .numeric] after :=
    ⟨_, _, by cbv, by cbv, ⟨_, by cbv⟩, ⟨_, by cbv⟩⟩
  obtain ⟨style, hname, hlast, hiff, hstyle, -, hsame⟩ :=
    @bodyParser_lastNamed (.ofMode .strict) ⟨"x"⟩ c _ (declares_iff.mpr ⟨after, hread⟩)
  have heq : style = { ofName ⟨"x"⟩ with
      system := some .numeric, leading := some (.ident "x"),
      symbols := some ⟨[.ident "b", .string "c"]⟩ } :=
    eq_of_descriptor? hname fun n => by rw [hlast]; cases n <;> rfl
  have hsymbols : style.HasSymbols := heq ▸ ⟨_, rfl, by decide⟩
  rcases hsame other _ (declares_iff.mpr ⟨after', hreadOther⟩) fun n => by cases n <;> rfl with
    ⟨s, first, second, hs, hsOther⟩ | ⟨fault, first, second, herror, -⟩
  · obtain rfl := hstyle s first hs
    exact ⟨c, other, s, first, second, hc, hother, hs, hsOther, hname, heq ▸ rfl, hsymbols⟩
  · obtain ⟨s, last, hs⟩ := hiff.mpr hsymbols
    cases herror.symm.trans hs

end CounterStyle

end Css
