import Css.Vocabulary
import Mathlib

/-!
# Lawful vocabularies

In a lawful vocabulary each member is found by its word, so words can be read back.
-/

namespace Css

/-- A vocabulary in which every member is found by its word. -/
class LawfulVocabulary (α : Type) [Vocabulary α] : Prop where
  find?_word (member : α) : Vocabulary.find? α (Vocabulary.word member) = some member

namespace Vocabulary

variable {α : Type} [Vocabulary α]

/-- The member that is found is written as the word that it was found by. -/
theorem word_of_find? {w : String} {member : α} (h : find? α w = some member) :
    word member = w := by
  simpa using List.find?_some h

/-- A word is found in a lawful vocabulary. -/
theorem find?_word [LawfulVocabulary α] (member : α) : find? α (word member) = some member :=
  LawfulVocabulary.find?_word member

/-- Members with the same word are the same. -/
theorem word_inj [LawfulVocabulary α] {a b : α} : word a = word b ↔ a = b := by
  refine ⟨fun h => ?_, congrArg word⟩
  have hfind := find?_word a
  rw [h, find?_word] at hfind
  exact (Option.some.inj hfind).symm

end Vocabulary

instance : LawfulVocabulary WideKeyword where
  find?_word member := by cases member <;> rfl

end Css
