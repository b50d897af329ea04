import AccessRules.Proofs.Rule.Matching
import AccessRules.Proofs.Rule.NormalForm
import AccessRules.Proofs.Rule.Places
import AccessRules.Proofs.Rule.Spelling

/-!
# Labelling writes labels and nothing else

The rows of a labelled rule are those of the rule with other labels, so every comparison and
the spelling find what they found before. A naming that only looks at the identities of
recipients gives the same labels once more. Normalising moves recipients about without a look
at their labels, so they can be labelled before it or after it.
-/

namespace AccessRules

/-!
## Namings that look at identities
-/

theorem Recipient.named_named {naming : Naming}
    (h : forall a b : Recipient, a.identity = b.identity -> naming a = naming b)
    (recipient : Recipient) :
    (recipient.named naming).named naming = recipient.named naming := by
  have hagain := h _ _ (recipient.identity_named naming)
  rw [named_eq_withLabel naming (recipient.named naming), hagain, named]
  cases naming recipient with
  | none =>
      rfl
  | some label =>
      rfl

theorem NameBook.naming_eq_of_identity_eq (book : NameBook) {a b : Recipient}
    (h : a.identity = b.identity) : book.naming a = book.naming b := by
  have htoken : a.token = b.token :=
    congrArg (fun identity : Kind × String => identity.1.token identity.2) h
  rw [naming, naming, htoken]

namespace Rule

theorem named_named {naming : Naming}
    (h : forall a b : Recipient, a.identity = b.identity -> naming a = naming b)
    (rule : Rule) : (rule.named naming).named naming = rule.named naming := by
  simp only [named_eq_namedTree]
  exact namedTree_namedTree (Recipient.named_named h) rule

/-!
## Labelled rules are the same

The identities of the recipients stay, and so do the tokens that spell them.
-/

theorem same_named (naming : Naming) (rule : Rule) : (rule.named naming).same rule = true := by
  rw [same_iff_unlabelled, named_eq_namedTree]
  apply namedTree_namedTree
  intro recipient
  exact Recipient.identity_eq_iff_unlabelled.mp (recipient.identity_named naming)

mutual

@[simp] theorem spelledTree_namedTree (naming : Naming) :
    (rule : Rule) -> spelledTree (namedTree naming rule) = spelledTree rule
  | ⟨connective, recipients, parts⟩ => by
      rw [namedTree, spelledTree, spelledTree, spelledTrees_namedTrees naming parts, List.map_map]
      congr 2
      apply List.map_congr_left
      intro recipient _
      exact congrArg (fun token => [token]) (recipient.token_named naming)

theorem spelledTrees_namedTrees (naming : Naming) :
    (rules : List Rule) -> spelledTrees (namedTrees naming rules) = spelledTrees rules
  | [] => rfl
  | rule :: rest => by
      rw [namedTrees, spelledTrees, spelledTrees, spelledTree_namedTree naming rule,
        spelledTrees_namedTrees naming rest]

end

@[simp] theorem tokens_named (naming : Naming) (rule : Rule) :
    (rule.named naming).tokens = rule.tokens := by
  rw [tokens_eq_spelledTree, tokens_eq_spelledTree, named_eq_namedTree, spelledTree_namedTree]

/-- Labelling a copy node by node gives the labelled rule. Wherever a recipient stands, it has
the label that the naming gives, or its old one where the naming gives none, and nothing else
is changed: the labelled rule is the same, equivalent and spelled alike. What a naming does that
only looks at identities, as the one of a name book does, is done once and for all. -/
theorem labelling_writes_labels_only (naming : Naming) (rule : Rule) :
    rule.labelInPlace naming = rule.named naming ∧
      (rule.named naming).rows =
          rule.rows.map (fun row =>
            { row with recipients := row.recipients.map (Recipient.named naming) }) ∧
        (forall recipient : Recipient,
          (recipient.named naming).kind = recipient.kind ∧
            (recipient.named naming).value = recipient.value ∧
              (recipient.named naming).label = (naming recipient).getD recipient.label) ∧
          (rule.named naming).same rule = true ∧
            (rule.named naming).isEquivalent rule = true ∧
              (rule.named naming).spell = rule.spell ∧
                ((forall a b : Recipient, a.identity = b.identity -> naming a = naming b) ->
                  (rule.named naming).named naming = rule.named naming) ∧
                  forall book : NameBook,
                    (rule.named book.naming).named book.naming = rule.named book.naming := by
  have hrows : (rule.named naming).rows = rule.rows.map (Row.named naming) := by
    rw [named_eq_namedTree, rows_namedTree]
  have hequivalent : (rule.named naming).isEquivalent rule = true :=
    isEquivalent_iff.mpr (equivalent_of_same (rule.same_named naming))
  refine ⟨rule.labelInPlace_eq_named naming, hrows, ?_, rule.same_named naming, hequivalent,
    ?_, ?_, ?_⟩
  · intro recipient
    rw [Recipient.named_eq_withLabel]
    exact ⟨rfl, rfl, rfl⟩
  · rw [spell, spell, tokens_named]
  · intro h
    exact named_named h rule
  · intro book
    exact named_named (fun _ _ => book.naming_eq_of_identity_eq) rule

theorem labelling_writes_labels_only_inside :
    exists (naming : Naming) (rule : Rule),
      naming = (fun recipient => if recipient.value = "a" then some "Ann" else none) ∧
        rule = ⟨.or, [⟨.user, "a", "U:a", rfl⟩],
          [⟨.not, [⟨.user, "b", "Bob", rfl⟩], [⟨.and, [.owner, ⟨.group, "a", "A", rfl⟩], []⟩]⟩]⟩ ∧
          rule.named naming = ⟨.or, [⟨.user, "a", "Ann", rfl⟩],
            [⟨.not, [⟨.user, "b", "Bob", rfl⟩],
              [⟨.and, [.owner, ⟨.group, "a", "Ann", rfl⟩], []⟩]⟩]⟩ ∧
            (rule.named naming).named naming = rule.named naming := by
  let naming : Naming := fun recipient => if recipient.value = "a" then some "Ann" else none
  have hidentity : forall a b : Recipient, a.identity = b.identity -> naming a = naming b := by
    intro a b h
    exact congrArg (fun identity : Kind × String =>
      if identity.2 = "a" then some "Ann" else none) h
  refine ⟨naming, _, rfl, rfl, ?_, ?_⟩
  · rw [named_eq_namedTree]
    rfl
  · exact (labelling_writes_labels_only naming _).2.2.2.2.2.2.1 hidentity

/-!
## Normal forms of labelled rules

A part is dropped, taken for its recipient or spliced in whatever its labels are, and the
recipients that it contributes take their labels along.
-/

@[simp] theorem isEmpty_namedTree (naming : Naming) (rule : Rule) :
    (namedTree naming rule).isEmpty = rule.isEmpty := by
  rw [namedTree_eq, isEmpty, isEmpty, List.isEmpty_map, List.isEmpty_map]

@[simp] theorem loneRecipient?_namedTree (naming : Naming) :
    (rule : Rule) ->
      (namedTree naming rule).loneRecipient? =
        rule.loneRecipient?.map (Recipient.named naming)
  | ⟨connective, [recipient], []⟩ => by
      show (if connective.isUnary then none else some (recipient.named naming)) =
        (if connective.isUnary then none else some recipient).map (Recipient.named naming)
      split <;> rfl
  | ⟨_, [], _⟩ => rfl
  | ⟨_, [_], _ :: _⟩ => rfl
  | ⟨_, _ :: _ :: _, _⟩ => rfl

theorem combine_namedTree (naming : Naming) (base incoming : Rule) :
    (namedTree naming base).combine (namedTree naming incoming) =
      namedTree naming (base.combine incoming) := by
  rw [combine, combine, connective_namedTree, connective_namedTree]
  split
  · simp only [namedTree_eq, List.map_append]
  · simp only [addPart, namedTree_eq, List.map_append, List.map_singleton]

theorem contribution_namedTree (naming : Naming) (connective : Connective) (part : Rule) :
    contribution connective (namedTree naming part) =
      namedTree naming (contribution connective part) := by
  rw [contribution, contribution, isEmpty_namedTree, loneRecipient?_namedTree]
  split
  · rfl
  · cases part.loneRecipient? with
    | some recipient =>
        rfl
    | none =>
        exact combine_namedTree naming (bare connective) part

theorem collapse_namedTree (naming : Naming) (node : Rule) (parts : List Rule) :
    collapse (namedTree naming node) (parts.map (namedTree naming)) =
      namedTree naming (collapse node parts) := by
  have hcontributions :
      (parts.map (namedTree naming)).map (contribution (namedTree naming node).connective) =
        (parts.map (contribution node.connective)).map (namedTree naming) := by
    rw [connective_namedTree, List.map_map, List.map_map]
    exact List.map_congr_left fun part _ => contribution_namedTree naming node.connective part
  rw [collapse, hcontributions, collapse]
  simp only [namedTree_eq, List.map_append, List.flatMap_map, List.map_flatMap]

mutual

theorem normalForm_namedTree (naming : Naming) :
    (rule : Rule) -> (namedTree naming rule).normalForm = namedTree naming rule.normalForm
  | ⟨connective, recipients, parts⟩ => by
      have hparts := map_normalForm_namedTrees naming parts
      rw [normalForm_eq, normalForm_eq ⟨connective, recipients, parts⟩, <- collapse_namedTree,
        <- hparts, namedTree_eq]

theorem map_normalForm_namedTrees (naming : Naming) :
    (rules : List Rule) ->
      (rules.map (namedTree naming)).map normalForm =
        (rules.map normalForm).map (namedTree naming)
  | [] => rfl
  | rule :: rest => by
      rw [List.map_cons, List.map_cons, List.map_cons, List.map_cons,
        normalForm_namedTree naming rule, map_normalForm_namedTrees naming rest]

end

/-- Whether a rule is labelled before or after it is normalised, every recipient has the same
label in the same place. -/
theorem normalForm_named (naming : Naming) (rule : Rule) :
    (rule.named naming).normalForm = rule.normalForm.named naming := by
  rw [named_eq_namedTree, named_eq_namedTree, normalForm_namedTree]

end Rule
end AccessRules
