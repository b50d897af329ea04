import AccessRules.Command.Run
import AccessRules.Proofs.Command.Output
import AccessRules.Proofs.Rule.Document

/-!
# The JSON output of a rule

The output is the indented document with a line break behind it. Without the blanks outside
its strings it is the compact document, and the compact document tells everything about the
rule, its labels included.
-/

namespace AccessRules
namespace Command

theorem written_documentWrites (rule : Rule) :
    written (documentWrites rule) = Json.spaced 0 false rule.symbols ++ "\n" := by
  rw [<- Json.indented_eq_spaced, documentWrites, written_append, written, List.map_map]
  congr 1
  exact congrArg Text.renderAll (List.map_id _)

/-- Rules with one compact document are one rule, labels included, and the output of any rule
differs from its compact document in blanks outside strings only. -/
theorem json_text_keeps_rule :
    (forall rule other : Rule, rule.compactJson = other.compactJson ↔ rule = other) ∧
      forall rule : Rule,
        Json.withoutBlanks .outside (written (treeWrites true rule)).toList =
          rule.compactJson.toList := by
  constructor
  · intro rule other
    exact ⟨Rule.compactJson_injective, congrArg Rule.compactJson⟩
  · intro rule
    show Json.withoutBlanks .outside (written (documentWrites rule)).toList = _
    rw [written_documentWrites, String.toList_append, Json.withoutBlanks_spaced]
    exact List.append_nil _

end Command
end AccessRules
