import AccessRules.Recipient.Kind

/-!
# Recipients

Kind and value are the identity of a recipient. Its label is presentation and takes part in no
comparison.
-/

namespace AccessRules

structure Recipient where
  kind : Kind
  value : String
  label : String
  valid : kind.objection? value = none
deriving DecidableEq

namespace Recipient

def token (recipient : Recipient) : String :=
  recipient.kind.token recipient.value

def isLabelled (recipient : Recipient) : Bool :=
  recipient.label != recipient.token

def withLabel (recipient : Recipient) (label : String) : Recipient :=
  { recipient with label }

def everyone : Recipient := ⟨.everyone, "*", "*", rfl⟩

def owner : Recipient := ⟨.owner, "$OWNER", "$OWNER", rfl⟩

/-- The recipient of a kind and a value, labelled by its own token. -/
def make (kind : Kind) (value : String) : Except Objection Recipient :=
  match h : kind.objection? value with
  | none => .ok ⟨kind, value, kind.token value, h⟩
  | some objection => .error objection

def identity (recipient : Recipient) : Kind × String :=
  (recipient.kind, recipient.value)

def same (a b : Recipient) : Bool :=
  a.identity = b.identity

def compareIdentity (a b : Kind × String) : Ordering :=
  (compare a.1.rank b.1.rank).then (compare a.2 b.2)

instance : Ord Recipient where
  compare a b := compareIdentity a.identity b.identity

def inOrder (a b : Recipient) : Bool :=
  (compare a b).isLE

@[simp] theorem identity_withLabel (recipient : Recipient) (label : String) :
    (recipient.withLabel label).identity = recipient.identity := rfl

@[simp] theorem token_withLabel (recipient : Recipient) (label : String) :
    (recipient.withLabel label).token = recipient.token := rfl

theorem same_iff {a b : Recipient} : a.same b = true ↔ a.identity = b.identity := by
  simp [same]

theorem make_eq_ok_iff {kind : Kind} {value : String} {recipient : Recipient} :
    make kind value = .ok recipient ↔
      recipient.kind = kind ∧ recipient.value = value ∧
        recipient.label = kind.token value := by
  unfold make
  split
  · rename_i h
    constructor
    · intro heq
      cases heq
      exact ⟨rfl, rfl, rfl⟩
    · rintro ⟨rfl, rfl, hlabel⟩
      cases recipient
      simp_all
  · rename_i objection h
    constructor
    · intro heq
      cases heq
    · rintro ⟨rfl, rfl, _⟩
      rw [recipient.valid] at h
      cases h

theorem make_eq_error_iff {kind : Kind} {value : String} {objection : Objection} :
    make kind value = .error objection ↔ kind.objection? value = some objection := by
  unfold make
  split
  · rename_i h
    constructor
    · intro hmade
      cases hmade
    · intro hsome
      rw [hsome] at h
      cases h
  · rename_i other h
    rw [h]
    simp

end Recipient
end AccessRules
