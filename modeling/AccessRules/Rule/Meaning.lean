import AccessRules.Rule.Basic

/-!
# What rules say

A conjunction holds when all of its operands do, a disjunction when some operand does, and a
negation when none does.
-/

namespace AccessRules

abbrev Assignment := Kind × String -> Bool

def Connective.holds : Connective -> List Bool -> Bool
  | .and, values => values.all id
  | .or, values => values.any id
  | .not, values => !values.any id

namespace Rule

def recipientValues (assignment : Assignment) (recipients : List Recipient) : List Bool :=
  recipients.map fun recipient => assignment recipient.identity

mutual

def holds (assignment : Assignment) : Rule -> Bool
  | ⟨connective, recipients, parts⟩ =>
      connective.holds (recipientValues assignment recipients ++ holdsEach assignment parts)

def holdsEach (assignment : Assignment) : List Rule -> List Bool
  | [] => []
  | rule :: rest => holds assignment rule :: holdsEach assignment rest

end

/-!
## The verdict of a rule

A rule without any recipient has no verdict and is left out of account.
-/

mutual

def mentions : Rule -> Bool
  | ⟨_, recipients, parts⟩ => !recipients.isEmpty || mentionsAny parts

def mentionsAny : List Rule -> Bool
  | [] => false
  | rule :: rest => mentions rule || mentionsAny rest

end

mutual

def verdict? (assignment : Assignment) : Rule -> Option Bool
  | ⟨connective, recipients, parts⟩ =>
      let values := recipientValues assignment recipients ++ verdicts assignment parts
      if values.isEmpty then none else some (connective.holds values)

/-- The verdicts of those rules that have one. -/
def verdicts (assignment : Assignment) : List Rule -> List Bool
  | [] => []
  | rule :: rest =>
      match verdict? assignment rule with
      | some value => value :: verdicts assignment rest
      | none => verdicts assignment rest

end

end Rule
end AccessRules
