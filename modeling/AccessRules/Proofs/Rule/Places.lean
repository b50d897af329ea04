import AccessRules.Rule.Places
import AccessRules.Proofs.Rule.Labels

/-!
# Labelling in place labels every node once

A rule with a gap is a context for what fills the gap. The loop that labels in place only
changes what fills the gap at the place it comes to, so it labels a part in the context of
the node around it, whatever has become of the other parts. In the end every node has been
labelled once.
-/

namespace AccessRules
namespace Rule

/-!
## Contexts
-/

/-- The gap of a context is at a place when changes there and below go to what fills it. -/
def GapAt (place : Place) (context : Rule -> Rule) : Prop :=
  forall change below rule,
    (context rule).changeAt change (place ++ below) = context (rule.changeAt change below)

theorem gapAt_root : GapAt [] id := by
  intro change below rule
  rfl

theorem gapAt_part {place : Place} {context : Rule -> Rule} (h : GapAt place context)
    (connective : Connective) (recipients : List Recipient) (before behind : List Rule) :
    GapAt (place ++ [before.length]) fun part =>
      context ⟨connective, recipients, before ++ part :: behind⟩ := by
  intro change below part
  have hpart : (before ++ part :: behind).modify before.length (changeAt change below) =
      before ++ part.changeAt change below :: behind := by
    rw [List.modify_eq_take_cons_drop (by simp)]
    simp
  rw [List.append_assoc, List.singleton_append, h, changeAt, hpart]

/-!
## The loop and the recursion agree

When the loop has dealt with a node and all that it put in front of the others for it, what
stands at the place is the labelled node.
-/

mutual

theorem labelPlaces_node (naming : Naming) {place : Place} {context : Rule -> Rule}
    (h : GapAt place context) (later : List (Place × Rule)) :
    (node : Rule) ->
      labelPlaces naming ((place, node) :: later) (context node) =
        labelPlaces naming later (context (namedTree naming node))
  | ⟨connective, recipients, parts⟩ => by
      have hnode := h (labelNode naming) [] ⟨connective, recipients, parts⟩
      rw [List.append_nil] at hnode
      rw [labelPlaces, hnode, namedTree]
      exact labelPlaces_parts naming h connective _ [] later parts

theorem labelPlaces_parts (naming : Naming) {place : Place} {context : Rule -> Rule}
    (h : GapAt place context) (connective : Connective) (recipients : List Recipient)
    (before : List Rule) (later : List (Place × Rule)) :
    (parts : List Rule) ->
      labelPlaces naming (pushParts place before.length parts later)
          (context ⟨connective, recipients, before ++ parts⟩) =
        labelPlaces naming later
          (context ⟨connective, recipients, before ++ namedTrees naming parts⟩)
  | [] => rfl
  | part :: rest => by
      have hgap := gapAt_part h connective recipients before (namedTrees naming rest)
      have hrest := labelPlaces_parts naming h connective recipients (before ++ [part])
        ((place ++ [before.length], part) :: later) rest
      rw [List.length_append, List.append_assoc, List.append_assoc] at hrest
      exact hrest.trans (labelPlaces_node naming hgap later part)

end

theorem labelInPlace_eq_named (naming : Naming) (rule : Rule) :
    rule.labelInPlace naming = rule.named naming := by
  have hrule := labelPlaces_node naming gapAt_root [] rule
  rw [labelPlaces] at hrule
  rw [labelInPlace, copy_eq, named_eq_namedTree]
  exact hrule

end Rule
end AccessRules
