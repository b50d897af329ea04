import AccessRules.Connective
import AccessRules.Recipient.Basic

/-!
# Access rules

A node joins its operands by one connective: first its recipients, then its parts. Any shape is a
rule: a node may be empty, and a negation may hold several operands.
-/

namespace AccessRules

structure Rule where
  connective : Connective
  recipients : List Recipient
  parts : List Rule

instance : Inhabited Rule := ⟨⟨.or, [], []⟩⟩

namespace Rule

def bare (connective : Connective) : Rule :=
  ⟨connective, [], []⟩

def single (connective : Connective) (recipient : Recipient) : Rule :=
  ⟨connective, [recipient], []⟩

def addRecipient (rule : Rule) (recipient : Recipient) : Rule :=
  { rule with recipients := rule.recipients ++ [recipient] }

def addPart (rule part : Rule) : Rule :=
  { rule with parts := rule.parts ++ [part] }

def isEmpty (rule : Rule) : Bool :=
  rule.recipients.isEmpty && rule.parts.isEmpty

def operandCount (rule : Rule) : Nat :=
  rule.recipients.length + rule.parts.length

/-- A rule is spliced in where the connective is associative, and held as a part elsewhere. -/
def combine (base incoming : Rule) : Rule :=
  if base.connective.absorbs incoming.connective then
    { base with
      recipients := base.recipients ++ incoming.recipients
      parts := base.parts ++ incoming.parts }
  else
    base.addPart incoming

/-- The recipient that a node stands for when it holds nothing else. A negated
recipient stands for something else than the recipient. -/
def loneRecipient? (rule : Rule) : Option Recipient :=
  match rule.recipients, rule.parts with
  | [recipient], [] => if rule.connective.isUnary then none else some recipient
  | _, _ => none

mutual

def nodeCount : Rule -> Nat
  | ⟨_, _, parts⟩ => nodeCountAll parts + 1

def nodeCountAll : List Rule -> Nat
  | [] => 0
  | rule :: rest => nodeCount rule + nodeCountAll rest

end

mutual

/-- A node without parts has depth one. -/
def height : Rule -> Nat
  | ⟨_, _, parts⟩ => heightAll parts + 1

def heightAll : List Rule -> Nat
  | [] => 0
  | rule :: rest => max (height rule) (heightAll rest)

end

theorem isEmpty_eq_true_iff {rule : Rule} :
    rule.isEmpty = true ↔ rule.recipients = [] ∧ rule.parts = [] := by
  rw [isEmpty, Bool.and_eq_true, List.isEmpty_iff, List.isEmpty_iff]

theorem nodeCount_eq (rule : Rule) : rule.nodeCount = nodeCountAll rule.parts + 1 := by
  cases rule
  simp [nodeCount]

theorem height_eq (rule : Rule) : rule.height = heightAll rule.parts + 1 := by
  cases rule
  simp [height]

@[simp] theorem nodeCountAll_append (left right : List Rule) :
    nodeCountAll (left ++ right) = nodeCountAll left + nodeCountAll right := by
  induction left with
  | nil => simp [nodeCountAll]
  | cons rule rest ih =>
      simp [nodeCountAll, ih, Nat.add_assoc]

@[simp] theorem heightAll_append (left right : List Rule) :
    heightAll (left ++ right) = max (heightAll left) (heightAll right) := by
  induction left with
  | nil => simp [heightAll]
  | cons rule rest ih =>
      simp [heightAll, ih, Nat.max_assoc]

end Rule
end AccessRules
