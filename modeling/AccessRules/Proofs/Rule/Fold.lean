import AccessRules.Rule.Fold

/-!
# Folds as equations

A fold without a state gives every node the value that it finishes with from the
values of its parts. When it finishes with the node itself, it gives the rule back.
-/

namespace AccessRules
namespace Rule

theorem foldTrees_eq_map (finish : Rule -> List β -> β) (rules : List Rule) :
    foldTrees (fun _ node values => ((), finish node values)) () rules =
      ((), rules.map (foldUp finish)) := by
  induction rules with
  | nil =>
      rfl
  | cons rule rest ih =>
      rw [foldTrees, ih, List.map_cons, foldUp, foldUpWith, continueFold_root]

theorem foldUp_eq (finish : Rule -> List β -> β) (rule : Rule) :
    rule.foldUp finish = finish rule (rule.parts.map (foldUp finish)) := by
  cases rule
  rw [foldUp, foldUpWith, continueFold_root, foldTree, foldTrees_eq_map]

mutual

theorem copy_eq : (rule : Rule) -> rule.copy = rule
  | ⟨connective, recipients, parts⟩ => by
      have hparts := map_copy_eq parts
      rw [copy, foldUp_eq]
      exact congrArg (Rule.mk connective recipients) hparts

theorem map_copy_eq : (rules : List Rule) -> rules.map copy = rules
  | [] => rfl
  | rule :: rest => by
      rw [List.map_cons, copy_eq rule, map_copy_eq rest]

end

end Rule
end AccessRules
