import AccessRules.Rule.Labels
import AccessRules.Rule.Comparison
import AccessRules.Proofs.Recipient.Token
import AccessRules.Proofs.Rule.Fold
import AccessRules.Proofs.Rule.Readable
import AccessRules.Proofs.Rule.Rows

/-!
# Rules without labels

Labelling changes no node and no height. Two rules are the same node for node
exactly when they are equal once every recipient has its token for a label.
-/

namespace AccessRules

/-!
## Labelled recipients
-/

namespace Recipient

theorem named_eq_withLabel (naming : Naming) (recipient : Recipient) :
    recipient.named naming = recipient.withLabel ((naming recipient).getD recipient.label) := by
  rw [named]
  cases naming recipient with
  | none =>
      rfl
  | some label =>
      rfl

@[simp] theorem identity_named (naming : Naming) (recipient : Recipient) :
    (recipient.named naming).identity = recipient.identity := by
  simp [named_eq_withLabel]

@[simp] theorem token_named (naming : Naming) (recipient : Recipient) :
    (recipient.named naming).token = recipient.token := by
  simp [named_eq_withLabel]

end Recipient

namespace Rule

/-!
## Labelling keeps the shape
-/

theorem namedTrees_eq_map (naming : Naming) (rules : List Rule) :
    namedTrees naming rules = rules.map (namedTree naming) := by
  induction rules with
  | nil =>
      rfl
  | cons rule rest ih =>
      rw [namedTrees, ih, List.map_cons]

theorem namedTree_eq (naming : Naming) (rule : Rule) :
    namedTree naming rule =
      ⟨rule.connective, rule.recipients.map (Recipient.named naming),
        rule.parts.map (namedTree naming)⟩ := by
  cases rule
  rw [namedTree, namedTrees_eq_map]

mutual

theorem named_eq_namedTree (naming : Naming) :
    (rule : Rule) -> rule.named naming = namedTree naming rule
  | ⟨connective, recipients, parts⟩ => by
      have hparts := map_named_eq_namedTrees naming parts
      rw [named, foldUp_eq, namedTree, <- hparts]
      rfl

theorem map_named_eq_namedTrees (naming : Naming) :
    (rules : List Rule) -> rules.map (named naming) = namedTrees naming rules
  | [] => rfl
  | rule :: rest => by
      rw [List.map_cons, namedTrees, named_eq_namedTree naming rule,
        map_named_eq_namedTrees naming rest]

end

@[simp] theorem connective_namedTree (naming : Naming) (rule : Rule) :
    (namedTree naming rule).connective = rule.connective := by
  rw [namedTree_eq]

mutual

@[simp] theorem height_namedTree (naming : Naming) :
    (rule : Rule) -> (namedTree naming rule).height = rule.height
  | ⟨connective, recipients, parts⟩ => by
      rw [namedTree, height, height, heightAll_namedTrees naming parts]

theorem heightAll_namedTrees (naming : Naming) :
    (rules : List Rule) -> heightAll (namedTrees naming rules) = heightAll rules
  | [] => rfl
  | rule :: rest => by
      rw [namedTrees, heightAll, heightAll, height_namedTree naming rule,
        heightAll_namedTrees naming rest]

end

mutual

@[simp] theorem isJoined_namedTree (naming : Naming) :
    (rule : Rule) -> (namedTree naming rule).isJoined = rule.isJoined
  | ⟨connective, recipients, parts⟩ => by
      have hparts := areJoinedIn_namedTrees naming connective parts
      have hcount : operandCount (namedTree naming ⟨connective, recipients, parts⟩) =
          operandCount ⟨connective, recipients, parts⟩ := by
        simp [operandCount, namedTree_eq]
      rw [namedTree] at hcount ⊢
      rw [isJoined, isJoined, hparts, wellSupplied, wellSupplied, hcount]

theorem areJoinedIn_namedTrees (naming : Naming) (connective : Connective) :
    (rules : List Rule) ->
      areJoinedIn connective (namedTrees naming rules) = areJoinedIn connective rules
  | [] => rfl
  | rule :: rest => by
      rw [namedTrees, areJoinedIn, areJoinedIn, connective_namedTree,
        isJoined_namedTree naming rule, areJoinedIn_namedTrees naming connective rest]

end

@[simp] theorem isReadable_namedTree (naming : Naming) (rule : Rule) :
    (namedTree naming rule).isReadable = rule.isReadable := by
  rw [isReadable, isReadable, isJoined_namedTree]
  simp [isLoneToken, namedTree_eq]

/-!
## Labelling twice

Two namings after each other do what a third one does, if they do so for each recipient.
-/

mutual

theorem namedTree_namedTree {first second both : Naming}
    (h : forall recipient : Recipient,
      (recipient.named first).named second = recipient.named both) :
    (rule : Rule) -> namedTree second (namedTree first rule) = namedTree both rule
  | ⟨connective, recipients, parts⟩ => by
      rw [namedTree, namedTree, namedTree, List.map_map, namedTrees_namedTrees h parts]
      congr 1
      exact List.map_congr_left fun recipient _ => h recipient

theorem namedTrees_namedTrees {first second both : Naming}
    (h : forall recipient : Recipient,
      (recipient.named first).named second = recipient.named both) :
    (rules : List Rule) -> namedTrees second (namedTrees first rules) = namedTrees both rules
  | [] => rfl
  | rule :: rest => by
      rw [namedTrees, namedTrees, namedTrees, namedTree_namedTree h rule,
        namedTrees_namedTrees h rest]

end

/-!
## The rows of a labelled rule

Labelling a rule labels the recipients in each of its rows.
-/

def Row.named (naming : Naming) (row : Row) : Row :=
  { row with recipients := row.recipients.map (Recipient.named naming) }

mutual

theorem rowsFrom_namedTree (naming : Naming) (depth : Nat) :
    (rule : Rule) ->
      rowsFrom depth (namedTree naming rule) = (rowsFrom depth rule).map (Row.named naming)
  | ⟨connective, recipients, parts⟩ => by
      rw [namedTree, rowsFrom, rowsFrom, List.map_cons, rowsOfAll_namedTrees]
      rfl

theorem rowsOfAll_namedTrees (naming : Naming) (depth : Nat) :
    (rules : List Rule) ->
      rowsOfAll depth (namedTrees naming rules) =
        (rowsOfAll depth rules).map (Row.named naming)
  | [] => rfl
  | rule :: rest => by
      rw [namedTrees, rowsOfAll, rowsOfAll, List.map_append, rowsFrom_namedTree naming depth rule,
        rowsOfAll_namedTrees naming depth rest]

end

@[simp] theorem rows_namedTree (naming : Naming) (rule : Rule) :
    (namedTree naming rule).rows = rule.rows.map (Row.named naming) := by
  rw [rows_eq_rowsFrom, rows_eq_rowsFrom, rowsFrom_namedTree]

/-!
## The rule behind the labels
-/

/-- The rule with its recipients as their tokens read. -/
def unlabelled (rule : Rule) : Rule :=
  namedTree (fun recipient => some recipient.token) rule

theorem unlabelled_eq (rule : Rule) :
    rule.unlabelled =
      ⟨rule.connective, rule.recipients.map Recipient.unlabelled,
        rule.parts.map unlabelled⟩ :=
  namedTree_eq _ rule

theorem map_identity_eq_iff {left right : List Recipient} :
    left.map Recipient.identity = right.map Recipient.identity ↔
      left.map Recipient.unlabelled = right.map Recipient.unlabelled := by
  induction left generalizing right with
  | nil =>
      cases right <;> simp
  | cons recipient rest ih =>
      cases right with
      | nil =>
          simp
      | cons other others =>
          simp [ih, Recipient.identity_eq_iff_unlabelled]

mutual

theorem sameTree_iff_unlabelled :
    (rule other : Rule) ->
      sameTree rule other = true ↔ rule.unlabelled = other.unlabelled
  | ⟨connective, recipients, parts⟩, other => by
      rw [sameTree, unlabelled_eq, unlabelled_eq other]
      simp only [Bool.and_eq_true, decide_eq_true_eq, mk.injEq, map_identity_eq_iff,
        sameTrees_iff_unlabelled parts other.parts, and_assoc]

theorem sameTrees_iff_unlabelled :
    (rules others : List Rule) ->
      sameTrees rules others = true ↔ rules.map unlabelled = others.map unlabelled
  | [], [] => by
      simp [sameTrees]
  | [], _ :: _ => by
      simp [sameTrees]
  | _ :: _, [] => by
      simp [sameTrees]
  | rule :: rest, other :: others => by
      rw [sameTrees, Bool.and_eq_true, sameTree_iff_unlabelled rule other,
        sameTrees_iff_unlabelled rest others]
      simp

end

theorem same_iff_unlabelled {rule other : Rule} :
    rule.same other = true ↔ rule.unlabelled = other.unlabelled := by
  rw [same_eq_sameTree, sameTree_iff_unlabelled]

@[simp] theorem same_refl (rule : Rule) : rule.same rule = true :=
  same_iff_unlabelled.mpr rfl

/-!
## What only depends on the rule behind the labels
-/

theorem height_of_same {rule other : Rule} (h : rule.same other = true) :
    rule.height = other.height := by
  rw [<- height_namedTree (fun recipient => some recipient.token) rule,
    <- height_namedTree (fun recipient => some recipient.token) other]
  exact congrArg height (same_iff_unlabelled.mp h)

theorem isReadable_of_same {rule other : Rule} (h : rule.same other = true) :
    rule.isReadable = other.isReadable := by
  rw [<- isReadable_namedTree (fun recipient => some recipient.token) rule,
    <- isReadable_namedTree (fun recipient => some recipient.token) other]
  exact congrArg isReadable (same_iff_unlabelled.mp h)

@[simp] theorem unlabelled_unlabelled (rule : Rule) :
    rule.unlabelled.unlabelled = rule.unlabelled :=
  namedTree_namedTree (fun _ => rfl) rule

@[simp] theorem same_unlabelled (rule : Rule) : rule.unlabelled.same rule = true :=
  same_iff_unlabelled.mpr rule.unlabelled_unlabelled

/-!
## Rules that carry no label

A rule is its own rule behind the labels just when none of its recipients has a label.
-/

theorem map_unlabelled_eq_iff {recipients : List Recipient} :
    recipients.map Recipient.unlabelled = recipients ↔
      forall recipient, recipient ∈ recipients -> recipient.isLabelled = false := by
  simp only [Recipient.isLabelled, bne_eq_false_iff_eq]
  induction recipients with
  | nil =>
      exact ⟨fun _ => List.forall_mem_nil _, fun _ => rfl⟩
  | cons recipient rest ih =>
      rw [List.map_cons, List.cons.injEq, Recipient.unlabelled_eq_iff, ih, List.forall_mem_cons]

mutual

theorem unlabelled_eq_self_iff :
    (rule : Rule) ->
      (rule.unlabelled = rule ↔
        forall recipient, recipient ∈ rule.allRecipients -> recipient.isLabelled = false)
  | ⟨connective, recipients, parts⟩ => by
      rw [unlabelled_eq, allRecipients_eq, List.forall_mem_append, <- map_unlabelled_eq_iff,
        <- map_unlabelled_eq_self_iff parts]
      simp only [mk.injEq, true_and]

theorem map_unlabelled_eq_self_iff :
    (rules : List Rule) ->
      (rules.map unlabelled = rules ↔
        forall recipient, recipient ∈ rules.flatMap allRecipients -> recipient.isLabelled = false)
  | [] => ⟨fun _ => List.forall_mem_nil _, fun _ => rfl⟩
  | rule :: rest => by
      rw [List.map_cons, List.cons.injEq, List.flatMap_cons, List.forall_mem_append,
        unlabelled_eq_self_iff rule, map_unlabelled_eq_self_iff rest]

end

end Rule

/-!
## Labels in a name book
-/

namespace NameBook

@[simp] theorem label?_empty (token : String) : empty.label? token = none :=
  Std.HashMap.getElem?_empty

theorem label?_enter (book : NameBook) (token label other : String) :
    (book.enter token label).label? other =
      if token = other then some label else book.label? other := by
  rw [label?, enter, Std.HashMap.getElem?_insert]
  simp only [beq_iff_eq]
  rfl

end NameBook
end AccessRules
