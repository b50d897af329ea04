import AccessRules.Rule.Basic

/-!
# Rules node for node

The pairs of nodes that are still to be compared are kept in two lists, so that the depth of the
rules costs memory but no call stack. Labels take no part.
-/

namespace AccessRules
namespace Rule

def sameNode (a b : Rule) : Bool :=
  a.connective = b.connective &&
    a.recipients.map Recipient.identity = b.recipients.map Recipient.identity &&
    a.parts.length = b.parts.length

def sameAll : List Rule -> List Rule -> Bool
  | [], [] => true
  | a :: as, b :: bs =>
      if sameNode a b then sameAll (a.parts ++ as) (b.parts ++ bs) else false
  | _, _ => false
termination_by rules => nodeCountAll rules
decreasing_by
  have := nodeCount_eq a
  simp only [nodeCountAll_append, nodeCountAll]
  omega

def same (a b : Rule) : Bool :=
  sameAll [a] [b]

/-!
## Agreement along the trees
-/

mutual

def sameTree : Rule -> Rule -> Bool
  | ⟨connective, recipients, parts⟩, other =>
      connective = other.connective &&
        recipients.map Recipient.identity = other.recipients.map Recipient.identity &&
        sameTrees parts other.parts

def sameTrees : List Rule -> List Rule -> Bool
  | [], [] => true
  | rule :: rest, other :: others => sameTree rule other && sameTrees rest others
  | _, _ => false

end

theorem sameTrees_of_length (parts others : List Rule) (h : parts.length ≠ others.length) :
    sameTrees parts others = false := by
  induction parts generalizing others with
  | nil =>
      cases others with
      | nil =>
          exact absurd rfl h
      | cons other others =>
          simp [sameTrees]
  | cons part rest ih =>
      cases others with
      | nil =>
          simp [sameTrees]
      | cons other others =>
          rw [sameTrees, ih others (by simpa using h), Bool.and_false]

theorem length_parts_of_sameNode {a b : Rule} (h : sameNode a b = true) :
    a.parts.length = b.parts.length := by
  rw [sameNode, Bool.and_eq_true, decide_eq_true_eq] at h
  exact h.2

/-- Parts that agree are as many on either side, so a node may look at that first. -/
theorem sameTree_eq (a b : Rule) :
    sameTree a b = (sameNode a b && sameTrees a.parts b.parts) := by
  rcases a with ⟨connective, recipients, parts⟩
  rw [sameTree, sameNode]
  by_cases hlength : parts.length = b.parts.length
  · rw [decide_eq_true hlength, Bool.and_true]
  · rw [sameTrees_of_length parts b.parts hlength, Bool.and_false, Bool.and_false]

mutual

@[simp] theorem sameAll_cons (as bs : List Rule) (b : Rule) :
    (a : Rule) -> sameAll (a :: as) (b :: bs) = (sameTree a b && sameAll as bs)
  | ⟨connective, recipients, parts⟩ => by
      rw [sameAll, sameTree_eq]
      cases hnode : sameNode ⟨connective, recipients, parts⟩ b with
      | false =>
          rfl
      | true =>
          rw [if_pos rfl, Bool.true_and,
            sameAll_append as bs b.parts parts (length_parts_of_sameNode hnode)]

theorem sameAll_append (as bs : List Rule) :
    (others parts : List Rule) -> parts.length = others.length ->
      sameAll (parts ++ as) (others ++ bs) = (sameTrees parts others && sameAll as bs)
  | [], [], _ => by
      simp [sameTrees]
  | other :: others, part :: parts, hlength => by
      rw [List.cons_append, List.cons_append, sameAll_cons _ _ other part,
        sameAll_append as bs others parts (by simpa using hlength), sameTrees, Bool.and_assoc]

end

theorem same_eq_sameTree (a b : Rule) : a.same b = sameTree a b := by
  simp [same, sameAll]

end Rule
end AccessRules
