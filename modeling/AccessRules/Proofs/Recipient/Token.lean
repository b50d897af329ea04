import AccessRules.Recipient.Token
import AccessRules.Connective
import AccessRules.Proofs.Text.Words

/-!
# Recipients and their tokens

Reading a token gives the recipient that is written that way, labelled by the
token itself. A token of a recipient is one word and is no keyword.
-/

namespace AccessRules

/-!
## Cutting a token at its first colon
-/

theorem splitTag?_tagged {tag : String} (htag : ':' ∉ tag.toList) (value : String) :
    splitTag? (tag ++ ":" ++ value) = some (tag, value) := by
  have hchars : (tag ++ ":" ++ value).toList = tag.toList ++ ':' :: value.toList := by
    simp
  have hkeep : forall c, c ∈ tag.toList -> decide (c ≠ ':') = true := by
    intro c hc
    exact decide_eq_true fun heq => htag (heq ▸ hc)
  rw [splitTag?, hchars, List.dropWhile_append_of_pos hkeep,
    List.takeWhile_append_of_pos hkeep]
  simp

theorem eq_of_splitTag? {token tag value : String}
    (h : splitTag? token = some (tag, value)) : token = tag ++ ":" ++ value := by
  unfold splitTag? at h
  simp only at h
  split at h
  · cases h
  · rename_i first rest hdrop
    have hfirst : first = ':' := by
      have hhead := List.head?_dropWhile_not (fun c => decide (c ≠ ':')) token.toList
      rw [hdrop] at hhead
      simpa using hhead
    subst hfirst
    have hparts : token.toList =
        token.toList.takeWhile (fun c => decide (c ≠ ':')) ++ ':' :: rest := by
      rw [<- hdrop]
      exact List.takeWhile_append_dropWhile.symm
    cases h
    apply String.toList_injective
    exact hparts.trans (by simp)

theorem colon_not_mem_of_splitTag? {token tag value : String}
    (h : splitTag? token = some (tag, value)) : ':' ∉ tag.toList := by
  unfold splitTag? at h
  simp only at h
  split at h
  · cases h
  · cases h
    intro hcolon
    rw [String.toList_ofList] at hcolon
    exact absurd rfl (of_decide_eq_true (List.all_eq_true.mp List.all_takeWhile ':' hcolon))

namespace Recipient

/-!
## Two ways to be written

A token is either the literal of its kind or holds a colon behind the tag. The
literals have no colon, so they are told apart from all other tokens.
-/

theorem token_of_tagged {recipient : Recipient} {tag : String}
    (hform : recipient.kind.form = .tagged tag) :
    recipient.token = tag ++ ":" ++ recipient.value := by
  rw [token, Kind.token, hform]

theorem value_of_literal {recipient : Recipient} {word : String}
    (hform : recipient.kind.form = .literal word) : recipient.value = word := by
  have hvalid := recipient.valid
  rw [Kind.objection?_literal hform] at hvalid
  by_cases hvalue : recipient.value = word
  · exact hvalue
  · simp [hvalue] at hvalid

theorem token_of_literal {recipient : Recipient} {word : String}
    (hform : recipient.kind.form = .literal word) : recipient.token = word := by
  rw [token, Kind.token, hform]
  exact value_of_literal hform

theorem colon_not_mem_tag {kind : Kind} {tag : String} (hform : kind.form = .tagged tag) :
    ':' ∉ tag.toList := by
  cases kind <;> cases hform <;> decide

theorem colon_not_mem_literal {kind : Kind} {word : String}
    (hform : kind.form = .literal word) : ':' ∉ word.toList := by
  cases kind <;> cases hform <;> decide

theorem colon_mem_token {recipient : Recipient} {tag : String}
    (hform : recipient.kind.form = .tagged tag) : ':' ∈ recipient.token.toList := by
  simp [token_of_tagged hform]

theorem isBlank_of_mem_value {recipient : Recipient} {tag : String}
    (hform : recipient.kind.form = .tagged tag) {c : Char}
    (hc : c ∈ recipient.value.toList) : Text.isBlank c = false := by
  have hvalid := recipient.valid
  rw [Kind.objection?_tagged hform] at hvalid
  cases hblank : Text.isBlank c with
  | false =>
      rfl
  | true =>
      have hany : recipient.value.toList.any Text.isBlank = true :=
        List.any_eq_true.mpr ⟨c, hc, hblank⟩
      by_cases hempty : recipient.value = "" <;> simp [hany, hempty] at hvalid

/-!
## Reading
-/

theorem ofLiteral?_of_colon {word : String} (hcolon : ':' ∈ word.toList) :
    Kind.ofLiteral? word = none := by
  apply Option.eq_none_iff_forall_ne_some.mpr
  intro kind hkind
  exact colon_not_mem_literal (Kind.ofLiteral?_eq_some_iff.mp hkind) hcolon

section Tagged

variable {kind : Kind} {tag value : String} (hform : kind.form = .tagged tag)

include hform

theorem make_of_isEmpty (hempty : value.isEmpty = true) :
    make kind value = .error .missingValue := by
  rw [String.isEmpty_iff] at hempty
  rw [make_eq_error_iff, Kind.objection?_tagged hform, if_pos hempty]

theorem make_of_blank (hempty : ¬ value.isEmpty = true)
    (hblank : value.toList.any Text.isBlank = true) :
    make kind value = .error .blankInValue := by
  rw [String.isEmpty_iff] at hempty
  rw [make_eq_error_iff, Kind.objection?_tagged hform, if_neg hempty, if_pos hblank]

end Tagged

/-- The recipient made from the kind and the value that a token names. -/
def makeFrom (token : String) : Except Objection Recipient :=
  match Kind.ofLiteral? token with
  | some kind => make kind token
  | none =>
      match splitTag? token with
      | none => .error .unknownTag
      | some (tag, value) =>
          match Kind.ofTag? tag with
          | none => .error .unknownTag
          | some kind => make kind value

/-- Reading a token makes the checks that making a recipient makes. -/
theorem read_eq_makeFrom (token : String) : read token = makeFrom token := by
  unfold read
  split
  · rename_i kind hliteral
    have hform := Kind.ofLiteral?_eq_some_iff.mp hliteral
    have hmake : makeFrom token = make kind token := by
      rw [makeFrom, hliteral]
    rw [hmake]
    exact (make_eq_ok_iff.mpr ⟨rfl, rfl, by rw [Kind.token, hform]⟩).symm
  · rename_i hliteral
    split
    · rename_i hsplit
      simp only [makeFrom, hliteral, hsplit]
    · rename_i tag value hsplit
      split
      · rename_i htag
        simp only [makeFrom, hliteral, hsplit, htag]
      · rename_i kind htag
        have hform := Kind.ofTag?_eq_some_iff.mp htag
        have hmake : makeFrom token = make kind value := by
          simp only [makeFrom, hliteral, hsplit, htag]
        rw [hmake]
        split
        · rename_i hempty
          exact (make_of_isEmpty hform hempty).symm
        · rename_i hempty
          split
          · rename_i hblank
            exact (make_of_blank hform hempty hblank).symm
          · have hlabel : token = kind.token value := by
              rw [Kind.token, hform, eq_of_splitTag? hsplit]
            exact (make_eq_ok_iff.mpr ⟨rfl, rfl, hlabel⟩).symm

theorem read_tagged {kind : Kind} {tag : String} (hform : kind.form = .tagged tag)
    (value : String) : read (tag ++ ":" ++ value) = make kind value := by
  have hliteral : Kind.ofLiteral? (tag ++ ":" ++ value) = none :=
    ofLiteral?_of_colon (by simp)
  rw [read_eq_makeFrom, makeFrom]
  simp only [hliteral, splitTag?_tagged (colon_not_mem_tag hform) value,
    Kind.ofTag?_eq_some_iff.mpr hform]

theorem token_eq_of_read {token : String} {recipient : Recipient}
    (h : read token = .ok recipient) :
    recipient.token = token ∧ recipient.label = token := by
  rw [read_eq_makeFrom, makeFrom] at h
  split at h
  · rename_i kind hliteral
    have hform := Kind.ofLiteral?_eq_some_iff.mp hliteral
    rcases make_eq_ok_iff.mp h with ⟨hkind, -, hlabel⟩
    rw [<- hkind] at hform
    constructor
    · exact token_of_literal hform
    · rw [hlabel, Kind.token, <- hkind, hform]
  · split at h
    · cases h
    · rename_i tag value hsplit
      split at h
      · cases h
      · rename_i kind htag
        have hform := Kind.ofTag?_eq_some_iff.mp htag
        have hwritten := eq_of_splitTag? hsplit
        rcases make_eq_ok_iff.mp h with ⟨hkind, hvalue, hlabel⟩
        rw [<- hkind] at hform
        constructor
        · rw [token_of_tagged hform, hvalue, hwritten]
        · rw [hlabel, Kind.token, <- hkind, hform, hwritten]

theorem read_of_token_eq {token : String} {recipient : Recipient}
    (htoken : recipient.token = token) (hlabel : recipient.label = token) :
    read token = .ok recipient := by
  cases hform : recipient.kind.form with
  | literal word =>
      have hword : token = word := htoken.symm.trans (token_of_literal hform)
      have hliteral : Kind.ofLiteral? token = some recipient.kind := by
        rw [hword]
        exact Kind.ofLiteral?_eq_some_iff.mpr hform
      have hvalue : recipient.value = token := by
        rw [hword]
        exact value_of_literal hform
      have hlabelled : recipient.label = recipient.kind.token token := by
        rw [hlabel, Kind.token, hform]
      rw [read_eq_makeFrom, makeFrom, hliteral]
      exact make_eq_ok_iff.mpr ⟨rfl, hvalue, hlabelled⟩
  | tagged tag =>
      have hwritten : token = tag ++ ":" ++ recipient.value := by
        rw [<- htoken]
        exact token_of_tagged hform
      have hlabelled : recipient.label = recipient.kind.token recipient.value :=
        hlabel.trans htoken.symm
      rw [hwritten, read_tagged hform]
      exact make_eq_ok_iff.mpr ⟨rfl, rfl, hlabelled⟩

theorem read_eq_ok_iff {token : String} {recipient : Recipient} :
    read token = .ok recipient ↔ recipient.token = token ∧ recipient.label = token := by
  constructor
  · exact token_eq_of_read
  · intro h
    exact read_of_token_eq h.1 h.2

/-!
A recipient comes back from its token without its label, and only recipients
without a label of their own are ever read.
-/

/-- The recipient as its token reads: the token is the label. -/
def unlabelled (recipient : Recipient) : Recipient :=
  recipient.withLabel recipient.token

theorem unlabelled_eq_iff {recipient : Recipient} :
    recipient.unlabelled = recipient ↔ recipient.label = recipient.token := by
  constructor
  · intro h
    exact (congrArg label h).symm
  · intro h
    rw [unlabelled, <- h]
    rfl

theorem identity_eq_iff_unlabelled {a b : Recipient} :
    a.identity = b.identity ↔ a.unlabelled = b.unlabelled := by
  constructor
  · intro h
    cases a
    cases b
    cases h
    rfl
  · intro h
    show a.unlabelled.identity = b.unlabelled.identity
    rw [h]

@[simp] theorem read_token (recipient : Recipient) :
    read recipient.token = .ok recipient.unlabelled :=
  read_of_token_eq rfl rfl

/-!
## Tokens are words of their own
-/

theorem any_isBlank_eq_false {value : String} :
    value.toList.any Text.isBlank = false ↔
      forall c, c ∈ value.toList -> Text.isBlank c = false := by
  simp

theorem isBlank_of_mem_token {recipient : Recipient} {c : Char}
    (hc : c ∈ recipient.token.toList) : Text.isBlank c = false := by
  cases hform : recipient.kind.form with
  | literal word =>
      have hword : word.toList.any Text.isBlank = false := by
        cases hkind : recipient.kind <;> rw [hkind] at hform <;> cases hform <;> decide
      rw [token_of_literal hform] at hc
      exact any_isBlank_eq_false.mp hword c hc
  | tagged tag =>
      have htag : tag.toList.any Text.isBlank = false := by
        cases hkind : recipient.kind <;> rw [hkind] at hform <;> cases hform <;> decide
      simp only [token_of_tagged hform, String.toList_append, List.mem_append] at hc
      rcases hc with (hc | hc) | hc
      · exact any_isBlank_eq_false.mp htag c hc
      · have hcolon : c = ':' := by simpa using hc
        rw [hcolon]
        rfl
      · exact isBlank_of_mem_value hform hc

theorem token_ne_empty (recipient : Recipient) : recipient.token ≠ "" := by
  intro hempty
  cases hform : recipient.kind.form with
  | literal word =>
      rw [token_of_literal hform] at hempty
      cases hkind : recipient.kind <;> rw [hkind] at hform <;> cases hform <;>
        exact absurd hempty (by decide)
  | tagged tag =>
      have hcolon := colon_mem_token hform
      rw [hempty] at hcolon
      cases hcolon

theorem isWord_token (recipient : Recipient) : Text.IsWord recipient.token := by
  refine ⟨recipient.token_ne_empty, ?_⟩
  intro c hc
  cases hseparator : Text.isSeparator c with
  | false =>
      rfl
  | true =>
      have hblank := isBlank_of_mem_token hc
      rw [Text.isBlank_of_isSeparator hseparator] at hblank
      cases hblank

@[simp] theorem ofKeyword?_token (recipient : Recipient) :
    Connective.ofKeyword? recipient.token = none := by
  cases hfound : Connective.ofKeyword? recipient.token with
  | none =>
      rfl
  | some connective =>
      have hword := Connective.ofKeyword?_eq_some_iff.mp hfound
      cases hform : recipient.kind.form with
      | literal word =>
          rw [token_of_literal hform] at hword
          cases hkind : recipient.kind <;> rw [hkind] at hform <;> cases hform <;>
            cases connective <;> exact absurd hword (by decide)
      | tagged tag =>
          have hcolon := colon_mem_token hform
          rw [hword] at hcolon
          cases connective <;> exact absurd hcolon (by decide)

end Recipient
end AccessRules
