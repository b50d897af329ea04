import AccessRules.Rule.Basic

/-!
# Rules that expressions spell

In a reading a negation has one operand, a conjunction or a disjunction has two or more, and none
of its parts repeats its connective. An expression of a single recipient is read as a disjunction
of one.
-/

namespace AccessRules
namespace Rule

def wellSupplied (rule : Rule) : Bool :=
  if rule.connective.isUnary then rule.operandCount = 1 else 2 ≤ rule.operandCount

mutual

/-- Every node comes from keywords. -/
def isJoined : Rule -> Bool
  | ⟨connective, recipients, parts⟩ =>
      wellSupplied ⟨connective, recipients, parts⟩ && areJoinedIn connective parts

def areJoinedIn (connective : Connective) : List Rule -> Bool
  | [] => true
  | part :: rest =>
      !connective.absorbs part.connective && isJoined part && areJoinedIn connective rest

end

def isLoneToken (rule : Rule) : Bool :=
  rule.connective = .or && rule.recipients.length = 1 && rule.parts.isEmpty

def isReadable (rule : Rule) : Bool :=
  rule.isLoneToken || rule.isJoined

/-!
## Rules whose spelling is an expression

Every node needs an operand for that, and a negation no more than one.
-/

def isFilled (rule : Rule) : Bool :=
  !rule.isEmpty && (!rule.connective.isUnary || rule.operandCount = 1)

mutual

/-- No node is empty and every negation has one operand. -/
def isComplete : Rule -> Bool
  | ⟨connective, recipients, parts⟩ =>
      isFilled ⟨connective, recipients, parts⟩ && areComplete parts

def areComplete : List Rule -> Bool
  | [] => true
  | rule :: rest => isComplete rule && areComplete rest

end

end Rule
end AccessRules
