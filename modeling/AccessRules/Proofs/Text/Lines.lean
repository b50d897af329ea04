import AccessRules.Proofs.Text.Words

/-!
# Texts on one line

A text stays on one line when it holds no line break. Words and numerals do, and so does
what is put together from such texts.
-/

namespace AccessRules
namespace Text

def OnOneLine (text : String) : Prop :=
  '\n' ∉ text.toList

instance (text : String) : Decidable (OnOneLine text) :=
  inferInstanceAs (Decidable ('\n' ∉ text.toList))

theorem onOneLine_append_iff {left right : String} :
    OnOneLine (left ++ right) ↔ OnOneLine left ∧ OnOneLine right := by
  rw [OnOneLine, String.toList_append, List.mem_append, not_or]
  rfl

theorem onOneLine_of_isWord {text : String} (h : IsWord text) : OnOneLine text := by
  intro hbreak
  cases h.2 _ hbreak

theorem onOneLine_numeral (number : Nat) : OnOneLine (toString number) := by
  intro hbreak
  rw [Nat.toString_eq_repr, Nat.toList_repr] at hbreak
  have hdigit : Char.isDigit '\n' = true :=
    Nat.isDigit_of_mem_toDigits (by decide) (Nat.le_refl 10) hbreak
  exact absurd hdigit (by decide)

theorem toList_spaces (count : Nat) : ("".pushn ' ' count).toList = List.replicate count ' ' := by
  rw [String.pushn_eq_repeat_push]
  induction count with
  | zero =>
      rfl
  | succ count ih =>
      rw [Nat.repeat, String.toList_push, ih, List.replicate_succ']

theorem onOneLine_spaces (count : Nat) : OnOneLine ("".pushn ' ' count) := by
  intro hbreak
  rw [toList_spaces] at hbreak
  exact absurd (List.eq_of_mem_replicate hbreak) (by decide)

end Text
end AccessRules
