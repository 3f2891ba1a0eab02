import Css.Proofs.Rule.Extent
import Css.Stylesheet.Basic

/-!
# Rule lists are read part by part

What stands behind an item does not change how the item is read, and nothing but the phase and the
table of namespaces is handed on. So a rule list that is put together from two comes to what the
first comes to and then to what the second comes to from there, and a fault leaves the rules in
front of it as they would be without it.
-/

namespace Css

open Css.Parser

namespace RuleList

/-- The rules in a block change neither the phase nor the table. -/
theorem state_nested (context : Context) (namespaces : Namespaces) (c : Cursor) :
    (nested context namespaces c).state = ⟨.body, namespaces⟩ := by
  have hlocal := Item.parser_local context namespaces
  obtain ⟨last, after, hsteps, hend⟩ :=
    steps_collect hasMore hlocal.shrinks ⟨.body, namespaces⟩ c
  have hlast : last = ⟨.body, namespaces⟩ :=
    hsteps.invariant (fun progress _ => progress = ⟨.body, namespaces⟩) rfl
      fun hprogress hstep => by rw [← hprogress]; exact (congrArg Prod.fst hstep).symm
  obtain ⟨-, -, hstate, -⟩ | ⟨e, -, -, hstep⟩ := hend
  · exact hstate.trans hlast
  · exact (congrArg Prod.fst hstep).symm.trans hlast

/-- Rule lists are read part by part, at the top level of a stylesheet and in a block. If the first
of two rows of components is read without a fault, and its last component that is no filler ends an
item, then both together come to the items of the first, followed by what the second comes to from
the progress that the first made. In a block, a row that is read without a fault always ends with
its last rule. What is read up to a fault is what the components in front of the refused rule come
to, and from there the refused rule alone comes to the fault. -/
theorem topLevel_append :
    (∀ context progress first second stop stop',
      let before := topLevel context progress ⟨first, stop⟩
      before.error? = none → Component.EndsWith Item.isEnd first →
      (topLevel context progress ⟨first ++ second, stop'⟩).Joins before
        (topLevel context before.state ⟨second, stop'⟩)) ∧
    (∀ context namespaces first second stop stop',
      let before := nested context namespaces ⟨first, stop⟩
      before.error? = none →
      (nested context namespaces ⟨first ++ second, stop'⟩).Joins before
        (nested context before.state.namespaces ⟨second, stop'⟩)) ∧
    (∀ context progress c e, (topLevel context progress c).error? = some e →
      ∃ last front back, c.rest = front ++ back ∧
        (∀ stop, topLevel context progress ⟨front, stop⟩ =
          ⟨(topLevel context progress c).items, none, last, ⟨[], stop⟩⟩) ∧
        topLevel context last ⟨back, c.stop⟩ = { topLevel context progress c with items := [] }) ∧
    ∀ context namespaces c e, (nested context namespaces c).error? = some e →
      ∃ front back, c.rest = front ++ back ∧
        (∀ stop, nested context namespaces ⟨front, stop⟩ =
          ⟨(nested context namespaces c).items, none, ⟨.body, namespaces⟩, ⟨[], stop⟩⟩) ∧
        nested context namespaces ⟨back, c.stop⟩ =
          { nested context namespaces c with items := [] } := by
  refine ⟨fun context progress first second stop stop' herror hend => ?_,
    fun context namespaces first second stop stop' herror => ?_,
    fun context progress c e herror => ?_, fun context namespaces c e herror => ?_⟩
  · exact (Item.local_topLevelStep context).joins herror hend
  · have hjoins : (nested context namespaces ⟨first ++ second, stop'⟩).Joins
        (nested context namespaces ⟨first, stop⟩)
        (collect hasMore _ (nested context namespaces ⟨first, stop⟩).state ⟨second, stop'⟩) :=
      (Item.parser_local context namespaces).joins herror trivial
    rw [state_nested] at hjoins ⊢
    exact hjoins
  · exact (Item.local_topLevelStep context).exists_front_of_error herror
  · obtain ⟨last, front, back, hrest, hfront, hback⟩ :=
      (Item.parser_local context namespaces).exists_front_of_error herror
    have hlast : (nested context namespaces ⟨front, c.stop⟩).state = last :=
      congrArg Outcome.state (hfront c.stop)
    rw [state_nested] at hlast
    subst hlast
    exact ⟨front, back, hrest, hfront, hback⟩

/-- A binding with a mark behind it is read in front of a rule and of a charset that stands too
late. The rule is what is read in front of the fault, at the top level and in a block. -/
theorem topLevel_append_late_charset :
    ∃ first second third, Cursor.ofText "@namespace a \"n\";--> " = .ok first ∧
      Cursor.ofText "a|b\x7bc:d\x7d" = .ok second ∧ Cursor.ofText "@charset \"x\";" = .ok third ∧
      let context : Context := .ofMode .strict
      let bound : Namespaces := ⟨[(some "a", "n")]⟩
      let late : Cursor := ⟨second.rest ++ third.rest, third.stop⟩
      (topLevel context ⟨.prologue, .empty⟩ ⟨first.rest ++ late.rest, late.stop⟩).Joins
          (topLevel context ⟨.prologue, .empty⟩ first) (topLevel context ⟨.prologue, bound⟩ late) ∧
        (nested context bound late).Joins
          (nested context bound second) (nested context bound third) ∧
        (∃ last front back, late.rest = front ++ back ∧ topLevel context ⟨.prologue, bound⟩
            ⟨front, late.stop⟩ = ⟨(topLevel context ⟨.prologue, bound⟩ late).items, none, last,
              ⟨[], late.stop⟩⟩) ∧
        ∃ front back, late.rest = front ++ back ∧ nested context bound ⟨front, late.stop⟩ =
          ⟨(nested context bound late).items, none, ⟨.body, bound⟩, ⟨[], late.stop⟩⟩ := by
  obtain ⟨first, second, third, hfirst, hsecond, hthird, hfront, hstate, hends, hrule,
      hlate, hblock⟩ :
      ∃ first second third, Cursor.ofText "@namespace a \"n\";--> " = .ok first ∧
        Cursor.ofText "a|b\x7bc:d\x7d" = .ok second ∧ Cursor.ofText "@charset \"x\";" = .ok third ∧
        (topLevel (.ofMode .strict) ⟨.prologue, .empty⟩ first).error? = none ∧
        (topLevel (.ofMode .strict) ⟨.prologue, .empty⟩ first).state =
          ⟨.prologue, ⟨[(some "a", "n")]⟩⟩ ∧
        (Component.significant first.rest).getLast?.all Item.isEnd = true ∧
        (nested (.ofMode .strict) ⟨[(some "a", "n")]⟩ second).error? = none ∧
        (topLevel (.ofMode .strict) ⟨.prologue, ⟨[(some "a", "n")]⟩⟩
          ⟨second.rest ++ third.rest, third.stop⟩).error? = some ⟨.lateCharset, .first⟩ ∧
        (nested (.ofMode .strict) ⟨[(some "a", "n")]⟩
          ⟨second.rest ++ third.rest, third.stop⟩).error? = some ⟨.lateCharset, .first⟩ :=
    ⟨_, _, _, by cbv, by cbv, by cbv, by cbv, by cbv, by cbv, by cbv, by cbv, by cbv⟩
  refine ⟨first, second, third, hfirst, hsecond, hthird, ?_, ?_, ?_, ?_⟩
  · have hclosed : Component.EndsWith Item.isEnd first.rest := by
      intro component hmem
      rw [Option.mem_def] at hmem
      simpa [hmem] using hends
    have hjoins := topLevel_append.1 _ _ first.rest (second.rest ++ third.rest)
      first.stop third.stop
      hfront hclosed
    rw [hstate] at hjoins
    exact hjoins
  · have hjoins := topLevel_append.2.1 _ _ second.rest third.rest second.stop third.stop hrule
    rw [state_nested] at hjoins
    exact hjoins
  · obtain ⟨last, front, back, hrest, hread, -⟩ := topLevel_append.2.2.1 _ _ _ _ hlate
    exact ⟨last, front, back, hrest, hread _⟩
  · obtain ⟨front, back, hrest, hread, -⟩ := topLevel_append.2.2.2 _ _ _ _ hblock
    exact ⟨front, back, hrest, hread _⟩

end RuleList

end Css
