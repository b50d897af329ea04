import AccessRules.Rule.Readable

/-!
# The shape of readings

The conditions on a node and on its parts, taken out of the recursion.
-/

namespace AccessRules
namespace Rule

theorem areJoinedIn_iff {connective : Connective} {parts : List Rule} :
    areJoinedIn connective parts = true ↔
      forall part, part ∈ parts ->
        connective.absorbs part.connective = false ∧ part.isJoined = true := by
  induction parts with
  | nil =>
      simp [areJoinedIn]
  | cons part rest ih =>
      simp [areJoinedIn, ih]

theorem isJoined_iff {rule : Rule} :
    rule.isJoined = true ↔
      rule.wellSupplied = true ∧
        forall part, part ∈ rule.parts ->
          rule.connective.absorbs part.connective = false ∧ part.isJoined = true := by
  cases rule
  rw [isJoined, Bool.and_eq_true, areJoinedIn_iff]

theorem wellSupplied_iff_of_unary {rule : Rule} (h : rule.connective.isUnary = true) :
    rule.wellSupplied = true ↔ rule.operandCount = 1 := by
  rw [wellSupplied, if_pos h, decide_eq_true_iff]

theorem wellSupplied_iff_of_binary {rule : Rule} (h : rule.connective.isUnary = false) :
    rule.wellSupplied = true ↔ 2 ≤ rule.operandCount := by
  rw [wellSupplied, if_neg (by simp [h]), decide_eq_true_iff]

theorem operandCount_pos_of_isJoined {rule : Rule} (h : rule.isJoined = true) :
    0 < rule.operandCount := by
  have hsupplied := (isJoined_iff.mp h).1
  unfold wellSupplied at hsupplied
  split at hsupplied
  · have hone := of_decide_eq_true hsupplied
    omega
  · have htwo := of_decide_eq_true hsupplied
    omega

theorem isLoneToken_iff {rule : Rule} :
    rule.isLoneToken = true ↔ exists recipient, rule = single .or recipient := by
  rcases rule with ⟨connective, recipients, parts⟩
  simp only [isLoneToken, Bool.and_eq_true, decide_eq_true_eq, List.isEmpty_iff,
    List.length_eq_one_iff, single, mk.injEq]
  constructor
  · rintro ⟨⟨hconnective, recipient, hrecipient⟩, hparts⟩
    exact ⟨recipient, hconnective, hrecipient, hparts⟩
  · rintro ⟨recipient, hconnective, hrecipient, hparts⟩
    exact ⟨⟨hconnective, recipient, hrecipient⟩, hparts⟩

theorem isFilled_iff {rule : Rule} :
    rule.isFilled = true ↔
      0 < rule.operandCount ∧ (rule.connective = .not -> rule.operandCount = 1) := by
  have hempty : rule.isEmpty = false ↔ 0 < rule.operandCount := by
    rw [isEmpty, operandCount, Nat.add_pos_iff_pos_or_pos, Bool.and_eq_false_iff,
      List.isEmpty_eq_false_iff, List.isEmpty_eq_false_iff, List.length_pos_iff,
      List.length_pos_iff]
  rw [isFilled, Bool.and_eq_true, Bool.not_eq_true', hempty]
  cases hconnective : rule.connective <;>
    simp [Connective.isUnary, Connective.arity]

theorem isJoined_single (recipient : Recipient) : isJoined (single .or recipient) = false := by
  simp [single, isJoined, wellSupplied, operandCount, Connective.isUnary, Connective.arity]

end Rule
end AccessRules
