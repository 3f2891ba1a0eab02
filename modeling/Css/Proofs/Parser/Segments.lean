import Css.Proofs.Parser.Exact

/-!
# Segments

A row of components falls into segments, each of which reaches up to a component that ends it. The
last one reaches up to the end of the row. What stands behind an end is cut into segments as it
would be on its own, `Component.segments_append`.
-/

namespace Css

open Component (significant significant_eq_nil_iff_forall)

/-- A part of a row of components, and the component that ends it if the end of the row does not. -/
structure Segment where
  contents : List Component
  ending : Option Component

namespace Component

/-- The segments of a row of components. There is always one more than there are ends. -/
def segments (isEnd : Component → Bool) : List Component → List Segment
  | [] => [⟨[], none⟩]
  | component :: rest =>
    if isEnd component then ⟨[], some component⟩ :: segments isEnd rest
    else (segments isEnd rest).modifyHead fun segment =>
      { segment with contents := component :: segment.contents }

variable {isEnd : Component → Bool} {front : List Component}

/-- The segments of a row and the components that end them make up the row. -/
theorem flatMap_segments (isEnd : Component → Bool) (row : List Component) :
    (segments isEnd row).flatMap (fun segment => segment.contents ++ segment.ending.toList) =
      row := by
  induction row with
  | nil => rfl
  | cons component rest ih =>
      rw [segments]
      split
      · rw [List.flatMap_cons, ih]
        rfl
      · cases hrest : segments isEnd rest with
        | nil =>
            obtain rfl : [] = rest := by simpa [hrest] using ih
            cases hrest
        | cons segment segments =>
            rw [hrest, List.flatMap_cons] at ih
            rw [List.modifyHead_cons, List.flatMap_cons, List.cons_append, List.cons_append, ih]

/-- What stands in a segment is a part of the row. -/
theorem contents_infix {row : List Component} {segment : Segment}
    (h : segment ∈ segments isEnd row) : segment.contents <:+: row := by
  obtain ⟨before, behind, hsplit⟩ := List.append_of_mem h
  have hrow := flatMap_segments isEnd row
  rw [hsplit, List.flatMap_append, List.flatMap_cons, List.append_assoc] at hrow
  exact ⟨_, _, by rw [List.append_assoc]; exact hrow⟩

/-- No end stands inside a segment. -/
theorem isEnd_of_mem_contents {row : List Component} {segment : Segment}
    (h : segment ∈ segments isEnd row) :
    ∀ component ∈ segment.contents, isEnd component = false := by
  induction row generalizing segment with
  | nil =>
      obtain rfl := List.mem_singleton.mp h
      nofun
  | cons component rest ih =>
      rw [segments] at h
      split at h
      · rcases List.mem_cons.mp h with rfl | h
        · nofun
        · exact ih h
      · rename_i hcomponent
        cases hrest : segments isEnd rest with
        | nil => rw [hrest] at h; cases h
        | cons first others =>
            rw [hrest] at h ih
            rcases List.mem_cons.mp h with rfl | h
            · exact List.forall_mem_cons.mpr
                ⟨by simpa using hcomponent, ih (List.mem_cons_self ..)⟩
            · exact ih (List.mem_cons_of_mem _ h)

/-- A row without an end is one segment. -/
theorem segments_of_forall (h : ∀ component ∈ front, isEnd component = false) :
    segments isEnd front = [⟨front, none⟩] := by
  induction front with
  | nil => rfl
  | cons component front ih =>
      rw [List.forall_mem_cons] at h
      rw [segments, if_neg (by simp [h.1]), ih h.2]
      rfl

/-- A row is the segment up to its first end, followed by the segments behind it. -/
theorem segments_append (h : ∀ component ∈ front, isEnd component = false) {ending : Component}
    (hending : isEnd ending = true) (rest : List Component) :
    segments isEnd (front ++ ending :: rest) = ⟨front, some ending⟩ :: segments isEnd rest := by
  induction front with
  | nil => rw [List.nil_append, segments, if_pos hending]
  | cons component front ih =>
      rw [List.forall_mem_cons] at h
      rw [List.cons_append, segments, if_neg (by simp [h.1]), ih h.2]
      rfl

end Component

namespace Segment

/-- The place where a segment of a row ends that ends at the given place. -/
def stop (segment : Segment) (stop : Position) : Position :=
  segment.ending.elim stop Component.start

/-- Nothing but fillers stands in front of a semicolon or of the end. -/
def isBlank (segment : Segment) : Bool :=
  segment.contents.all Component.isFiller && segment.ending.all fun ending =>
    ending.kind matches .semicolon

/-- A segment is blank if nothing in it is significant, in front of a semicolon or of the end. -/
theorem isBlank_iff {segment : Segment} : segment.isBlank = true ↔
    significant segment.contents = [] ∧
      ∀ ending ∈ segment.ending, ending.kind = .semicolon := by
  obtain ⟨contents, ending⟩ := segment
  rw [isBlank, Bool.and_eq_true, List.all_eq_true, significant_eq_nil_iff_forall]
  refine and_congr_right fun _ => ?_
  cases ending with
  | none => simp
  | some ending =>
      simp only [Option.all_some, Option.mem_def, Option.some.injEq, forall_eq']
      cases ending.kind <;> simp

/-- A segment with something significant in it is not blank. -/
theorem isBlank_of_significant {segment : Segment} (h : significant segment.contents ≠ []) :
    segment.isBlank = false :=
  Bool.eq_false_iff.mpr fun hblank => h (isBlank_iff.mp hblank).1

end Segment

end Css
