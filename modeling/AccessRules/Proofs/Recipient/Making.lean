import AccessRules.Proofs.Recipient.Objection

/-!
# Recipients from values and from tokens

A recipient is made from a kind and a value, or it is read from a token. Both ways lead to
the same recipients, labels included. So a token stands for one kind with one value, and
every value that a kind accepts has a token of its own.
-/

namespace AccessRules

/-- The values that a kind accepts, told from how its recipients are written. -/
def Kind.Accepts (kind : Kind) (value : String) : Prop :=
  kind.form = .literal value ∨
    exists tag,
      kind.form = .tagged tag ∧ value ≠ "" ∧
        forall c, c ∈ value.toList -> Text.isBlank c = false

namespace Recipient

/-!
## Accepted values
-/

theorem objection?_eq_none_iff {kind : Kind} {value : String} :
    kind.objection? value = none ↔ kind.Accepts value := by
  cases hform : kind.form with
  | literal word =>
      simp only [Kind.objection?, Kind.Accepts, hform]
      by_cases hvalue : value = word
      · simp [hvalue]
      · simp [hvalue, Ne.symm hvalue]
  | tagged tag =>
      rw [Kind.objection?_tagged hform, Kind.Accepts, <- any_isBlank_eq_false, hform]
      by_cases hempty : value = ""
      · simp [hempty]
      · cases hblank : value.toList.any Text.isBlank <;> simp [hempty]

theorem exists_make_iff {kind : Kind} {value : String} :
    (exists recipient, make kind value = .ok recipient) ↔ kind.Accepts value := by
  rw [<- objection?_eq_none_iff]
  constructor
  · intro h
    rcases h with ⟨recipient, h⟩
    rcases make_eq_ok_iff.mp h with ⟨rfl, rfl, -⟩
    exact recipient.valid
  · intro hvalid
    exact ⟨⟨kind, value, kind.token value, hvalid⟩, make_eq_ok_iff.mpr ⟨rfl, rfl, rfl⟩⟩

/-!
## Tokens tell recipients apart
-/

theorem identity_eq_of_token_eq {a b : Recipient} (h : a.token = b.token) :
    a.identity = b.identity := by
  have hread := a.read_token
  rw [h, b.read_token] at hread
  exact identity_eq_iff_unlabelled.mpr (Except.ok.inj hread).symm

theorem token_ne_keyword (recipient : Recipient) (connective : Connective) :
    recipient.token ≠ connective.keyword := by
  intro hword
  have hkeyword := recipient.ofKeyword?_token
  rw [Connective.ofKeyword?_eq_some_iff.mpr hword] at hkeyword
  cases hkeyword

theorem readsBack_eq_true (recipient : Recipient) : recipient.readsBack = true := by
  rw [readsBack, read_token]
  exact same_iff.mpr rfl

/-!
## Making and reading
-/

theorem label_eq_token_of_make {kind : Kind} {value : String} {made : Recipient}
    (h : make kind value = .ok made) : made.label = made.token := by
  rcases make_eq_ok_iff.mp h with ⟨rfl, rfl, hlabel⟩
  exact hlabel

theorem read_iff_make {token : String} {kind : Kind} {value : String} {recipient : Recipient} :
    (read token = .ok recipient ∧ recipient.kind = kind ∧ recipient.value = value) ↔
      make kind value = .ok recipient ∧ recipient.token = token := by
  rw [read_eq_ok_iff, make_eq_ok_iff]
  constructor
  · intro h
    rcases h with ⟨⟨rfl, hlabel⟩, rfl, rfl⟩
    exact ⟨⟨rfl, rfl, hlabel⟩, rfl⟩
  · intro h
    rcases h with ⟨⟨rfl, rfl, hlabel⟩, rfl⟩
    exact ⟨⟨rfl, hlabel⟩, rfl, rfl⟩

/-- A token reads as a recipient with a kind and a value just when that recipient is made
from them and written as the token. What is made has its token for a label. Under whatever
label, its token is no keyword, has no blank in it, reads back as the recipient, and belongs
to no other kind or value. -/
theorem tokens_and_values_correspond (token : String) (kind : Kind) (value : String) :
    (forall recipient,
      (read token = .ok recipient ∧ recipient.kind = kind ∧ recipient.value = value) ↔
        make kind value = .ok recipient ∧ recipient.token = token) ∧
      ((exists recipient, make kind value = .ok recipient) ↔ kind.Accepts value) ∧
        forall made,
          make kind value = .ok made ->
            made.label = made.token ∧ made.isLabelled = false ∧
              forall label,
                (made.withLabel label).token = made.token ∧
                  (made.withLabel label).token ≠ "" ∧
                  (forall connective : Connective,
                    (made.withLabel label).token ≠ connective.keyword) ∧
                  (forall c, c ∈ (made.withLabel label).token.toList -> Text.isBlank c = false) ∧
                  (made.withLabel label).readsBack = true ∧
                  forall otherKind otherValue other otherLabel,
                    make otherKind otherValue = .ok other ->
                      (other.withLabel otherLabel).token = (made.withLabel label).token ->
                        otherKind = kind ∧ otherValue = value := by
  refine ⟨fun recipient => read_iff_make, exists_make_iff, ?_⟩
  intro made h
  have hlabel := label_eq_token_of_make h
  refine ⟨hlabel, ?_, ?_⟩
  · rw [isLabelled, hlabel]
    exact bne_self_eq_false made.token
  · intro label
    refine ⟨token_withLabel made label, token_ne_empty _, token_ne_keyword _, ?_,
      readsBack_eq_true _, ?_⟩
    · intro c hc
      exact isBlank_of_mem_token hc
    · intro otherKind otherValue other otherLabel hother htoken
      rcases make_eq_ok_iff.mp h with ⟨rfl, rfl, -⟩
      rcases make_eq_ok_iff.mp hother with ⟨rfl, rfl, -⟩
      exact Prod.mk.inj (identity_eq_of_token_eq htoken)

/-- The value holds a literal and a further colon, and the label holds a keyword and blanks. -/
theorem tokens_and_values_correspond_behind_colon :
    exists made : Recipient,
      made = ⟨.signOn, "a:$OWNER", "T:a:$OWNER", rfl⟩ ∧
        make .signOn "a:$OWNER" = .ok made ∧ read "T:a:$OWNER" = .ok made ∧
          Kind.signOn.Accepts "a:$OWNER" ∧
            (made.withLabel "x AND\ny").token = "T:a:$OWNER" ∧
              (made.withLabel "x AND\ny").readsBack = true ∧
                forall otherKind otherValue other otherLabel,
                  make otherKind otherValue = .ok other ->
                    (other.withLabel otherLabel).token = "T:a:$OWNER" ->
                      otherKind = .signOn ∧ otherValue = "a:$OWNER" := by
  have h : make .signOn "a:$OWNER" = .ok ⟨.signOn, "a:$OWNER", "T:a:$OWNER", rfl⟩ := rfl
  rcases tokens_and_values_correspond "T:a:$OWNER" .signOn "a:$OWNER" with
    ⟨hread, haccepts, hmade⟩
  rcases (hmade _ h).2.2 "x AND\ny" with ⟨htoken, -, -, -, hback, hunique⟩
  exact ⟨_, rfl, h, ((hread _).mpr ⟨h, rfl⟩).1, haccepts.mp ⟨_, h⟩, htoken, hback, hunique⟩

end Recipient
end AccessRules
