import AccessRules.Rule.Fold
import Std.Data.HashMap

/-!
# Labelling recipients

A naming, which may look at the whole recipient, gives labels to some of them.
-/

namespace AccessRules

abbrev Naming := Recipient -> Option String

namespace Recipient

def named (naming : Naming) (recipient : Recipient) : Recipient :=
  match naming recipient with
  | some label => recipient.withLabel label
  | none => recipient

end Recipient

namespace Rule

def namedNode (naming : Naming) (node : Rule) (parts : List Rule) : Rule :=
  { node with recipients := node.recipients.map (Recipient.named naming), parts }

def named (naming : Naming) (rule : Rule) : Rule :=
  rule.foldUp (namedNode naming)

mutual

def namedTree (naming : Naming) : Rule -> Rule
  | ⟨connective, recipients, parts⟩ =>
      ⟨connective, recipients.map (Recipient.named naming), namedTrees naming parts⟩

def namedTrees (naming : Naming) : List Rule -> List Rule
  | [] => []
  | rule :: rest => namedTree naming rule :: namedTrees naming rest

end

end Rule

/-!
## Name books

A later entry for a token replaces the earlier one.
-/

structure NameBook where
  labels : Std.HashMap String String

namespace NameBook

def empty : NameBook := ⟨{}⟩

def label? (book : NameBook) (token : String) : Option String :=
  book.labels[token]?

def enter (book : NameBook) (token label : String) : NameBook :=
  ⟨book.labels.insert token label⟩

def size (book : NameBook) : Nat :=
  book.labels.size

def naming (book : NameBook) : Naming :=
  fun recipient => book.label? recipient.token

end NameBook
end AccessRules
