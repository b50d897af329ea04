import AccessRules.Text.Blank

/-!
# Kinds of recipients

Six kinds are written as a tag, a colon and a value. The other two are words of their own.
-/

namespace AccessRules

inductive Kind where
  | user
  | group
  | role
  | everyone
  | owner
  | referrer
  | address
  | signOn
deriving DecidableEq, Repr, Inhabited, Hashable

inductive TokenForm where
  | tagged (tag : String)
  | literal (word : String)
deriving DecidableEq, Repr

inductive Objection where
  | unknownTag
  | missingValue
  | blankInValue
  | wrongLiteral
deriving DecidableEq, Repr

def Objection.message : Objection -> String
  | unknownTag => "unknown recipient prefix"
  | missingValue => "missing recipient value"
  | blankInValue => "recipient value contains whitespace"
  | wrongLiteral => "self-contained recipient must use its literal token"

namespace Kind

def all : List Kind :=
  [user, group, role, everyone, owner, referrer, address, signOn]

def name : Kind -> String
  | user => "User"
  | group => "Group"
  | role => "Role"
  | everyone => "Everyone"
  | owner => "Owner"
  | referrer => "Refer"
  | address => "Ip"
  | signOn => "Sso"

def form : Kind -> TokenForm
  | user => .tagged "U"
  | group => .tagged "G"
  | role => .tagged "R"
  | everyone => .literal "*"
  | owner => .literal "$OWNER"
  | referrer => .tagged "F"
  | address => .tagged "I"
  | signOn => .tagged "T"

def rank : Kind -> Nat
  | user => 0
  | group => 1
  | role => 2
  | everyone => 3
  | owner => 4
  | referrer => 5
  | address => 6
  | signOn => 7

def ofTag? (tag : String) : Option Kind :=
  all.find? fun kind => kind.form = .tagged tag

def ofLiteral? (word : String) : Option Kind :=
  all.find? fun kind => kind.form = .literal word

def token (kind : Kind) (value : String) : String :=
  match kind.form with
  | .tagged tag => tag ++ ":" ++ value
  | .literal _ => value

/-- A tagged kind takes any text that is not empty and has no blank in it. -/
def objection? (kind : Kind) (value : String) : Option Objection :=
  match kind.form with
  | .literal word => if value = word then none else some .wrongLiteral
  | .tagged _ =>
      if value.isEmpty then some .missingValue
      else if value.toList.any Text.isBlank then some .blankInValue
      else none

/-!
## Tags and literals name their kinds
-/

theorem rank_injective {a b : Kind} (h : a.rank = b.rank) : a = b := by
  cases a <;> cases b <;> first | rfl | (exact absurd h (by decide))

theorem ofTag?_eq_some_iff {tag : String} {kind : Kind} :
    ofTag? tag = some kind ↔ kind.form = .tagged tag := by
  constructor
  · intro h
    have := List.find?_some h
    exact of_decide_eq_true this
  · intro h
    cases kind <;> simp only [form, TokenForm.tagged.injEq, reduceCtorEq] at h <;>
      subst h <;> rfl

theorem ofLiteral?_eq_some_iff {word : String} {kind : Kind} :
    ofLiteral? word = some kind ↔ kind.form = .literal word := by
  constructor
  · intro h
    have := List.find?_some h
    exact of_decide_eq_true this
  · intro h
    cases kind <;> simp only [form, TokenForm.literal.injEq, reduceCtorEq] at h <;>
      subst h <;> rfl

theorem objection?_literal {kind : Kind} {word : String} (hform : kind.form = .literal word)
    (value : String) :
    kind.objection? value = if value = word then none else some .wrongLiteral := by
  rw [objection?, hform]

theorem objection?_tagged {kind : Kind} {tag : String} (hform : kind.form = .tagged tag)
    (value : String) :
    kind.objection? value =
      if value = "" then some .missingValue
      else if value.toList.any Text.isBlank then some .blankInValue
      else none := by
  rw [objection?, hform]
  simp

theorem objection?_of_ofLiteral? {word : String} {kind : Kind}
    (h : ofLiteral? word = some kind) : kind.objection? word = none := by
  rw [objection?_literal (ofLiteral?_eq_some_iff.mp h), if_pos rfl]

theorem objection?_of_ofTag? {tag value : String} {kind : Kind} (h : ofTag? tag = some kind)
    (hempty : ¬ value.isEmpty = true) (hblank : ¬ value.toList.any Text.isBlank = true) :
    kind.objection? value = none := by
  rw [objection?_tagged (ofTag?_eq_some_iff.mp h), if_neg, if_neg hblank]
  rwa [String.isEmpty_iff] at hempty

end Kind
end AccessRules
