import AccessRules.Rule.Spelling

/-!
# The spelling along the tree

The tokens that the writing loop produces are those of the recursion on the tree.
-/

namespace AccessRules
namespace Rule

theorem flatMap_spellOperands (connective : Connective) (operands : List (Piece String)) :
    (spellOperands connective operands).flatMap spelling.expand =
      joinOperands connective (operands.map spelling.expand) := by
  cases operands with
  | nil =>
      rfl
  | cons first rest =>
      rw [spellOperands, List.map_cons, joinOperands]
      simp [List.flatMap_append, List.flatMap_map, List.flatMap_assoc, Layout.expand,
        List.flatMap_singleton']

mutual

theorem tokens_eq_spelledTree : (rule : Rule) -> rule.tokens = spelledTree rule
  | ⟨connective, recipients, parts⟩ => by
      have hparts := map_tokens_eq_spelledTrees parts
      rw [tokens, Layout.write_eq, spelledTree]
      show (spellNode _).flatMap spelling.expand = _
      rw [spellNode, flatMap_spellOperands, List.map_append, List.map_map, List.map_map,
        <- hparts]
      rfl

theorem map_tokens_eq_spelledTrees :
    (rules : List Rule) -> rules.map tokens = spelledTrees rules
  | [] => rfl
  | rule :: rest => by
      rw [List.map_cons, spelledTrees, tokens_eq_spelledTree rule,
        map_tokens_eq_spelledTrees rest]

end

end Rule
end AccessRules
