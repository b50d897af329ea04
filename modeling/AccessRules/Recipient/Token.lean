import AccessRules.Recipient.Basic

/-!
# Reading recipients from tokens

The first colon ends the tag, so a value may hold further colons.
-/

namespace AccessRules

def splitTag? (token : String) : Option (String × String) :=
  let chars := token.toList
  match chars.dropWhile (· ≠ ':') with
  | [] => none
  | _ :: value => some (String.ofList (chars.takeWhile (· ≠ ':')), String.ofList value)

namespace Recipient

/-- A literal is looked up first and needs no check. The value behind a known tag is checked
here, and the recipient is labelled by the token as it stands. -/
def read (token : String) : Except Objection Recipient :=
  match hliteral : Kind.ofLiteral? token with
  | some kind => .ok ⟨kind, token, token, Kind.objection?_of_ofLiteral? hliteral⟩
  | none =>
      match splitTag? token with
      | none => .error .unknownTag
      | some (tag, value) =>
          match htag : Kind.ofTag? tag with
          | none => .error .unknownTag
          | some kind =>
              if hempty : value.isEmpty then .error .missingValue
              else if hblank : value.toList.any Text.isBlank then .error .blankInValue
              else .ok ⟨kind, value, token, Kind.objection?_of_ofTag? htag hempty hblank⟩

def readsBack (recipient : Recipient) : Bool :=
  match read recipient.token with
  | .ok again => again.same recipient
  | .error _ => false

end Recipient
end AccessRules
