import AccessRules.Rule.Fold

/-!
# Normal forms

The normal form drops empty parts, turns a part that stands for one recipient into that
recipient, and splices a part in where its connective allows it. The innermost parts come first,
and the root stays even when it is empty.
-/

namespace AccessRules
namespace Rule

/-- The node of the connective that holds just what a part brings into such a node. -/
def contribution (connective : Connective) (part : Rule) : Rule :=
  if part.isEmpty then bare connective
  else
    match part.loneRecipient? with
    | some recipient => single connective recipient
    | none => (bare connective).combine part

/-- A node with its own recipients and, in place of its parts, what the parts contribute. -/
def collapse (node : Rule) (parts : List Rule) : Rule :=
  let contributions := parts.map (contribution node.connective)
  { node with
    recipients := node.recipients ++ contributions.flatMap recipients
    parts := contributions.flatMap Rule.parts }

def takeIn (node part : Rule) : Rule :=
  if part.isEmpty then node
  else
    match part.loneRecipient? with
    | some recipient => node.addRecipient recipient
    | none => node.combine part

def normalForm (rule : Rule) : Rule :=
  rule.foldUp collapse

/-!
## Normal rules
-/

/-- A part that is not empty, stands for no single recipient and cannot be spliced in. -/
def staysIn (connective : Connective) (part : Rule) : Bool :=
  !part.isEmpty && part.loneRecipient?.isNone && !connective.absorbs part.connective

mutual

def isNormal : Rule -> Bool
  | ⟨connective, _, parts⟩ => areNormalIn connective parts

def areNormalIn (connective : Connective) : List Rule -> Bool
  | [] => true
  | part :: rest =>
      staysIn connective part && isNormal part && areNormalIn connective rest

end

end Rule
end AccessRules
