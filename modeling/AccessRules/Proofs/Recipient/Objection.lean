import AccessRules.Proofs.Recipient.Token

/-!
# Why a word names no recipient

What each objection says about a word is told from the word alone, without the table of
kinds. A word without separators is refused with an objection just when the objection
applies to it. So one objection at most applies to a word.
-/

namespace AccessRules

/-!
## The words and tags of the kinds
-/

def literalWords : List String := ["*", "$OWNER"]

def tagWords : List String := ["U", "G", "R", "F", "I", "T"]

theorem mem_literalWords_iff {word : String} :
    word ∈ literalWords ↔ exists kind : Kind, kind.form = .literal word := by
  constructor
  · intro h
    simp only [literalWords, List.mem_cons, List.not_mem_nil, or_false] at h
    rcases h with rfl | rfl
    · exact ⟨.everyone, rfl⟩
    · exact ⟨.owner, rfl⟩
  · rintro ⟨kind, hform⟩
    cases kind <;> cases hform <;> decide

theorem mem_tagWords_iff {tag : String} :
    tag ∈ tagWords ↔ exists kind : Kind, kind.form = .tagged tag := by
  constructor
  · intro h
    simp only [tagWords, List.mem_cons, List.not_mem_nil, or_false] at h
    rcases h with rfl | rfl | rfl | rfl | rfl | rfl
    · exact ⟨.user, rfl⟩
    · exact ⟨.group, rfl⟩
    · exact ⟨.role, rfl⟩
    · exact ⟨.referrer, rfl⟩
    · exact ⟨.address, rfl⟩
    · exact ⟨.signOn, rfl⟩
  · rintro ⟨kind, hform⟩
    cases kind <;> cases hform <;> decide

/-- What an objection says about a word. The tag of a word ends before its first colon. -/
def Objection.AppliesTo (word : String) : Objection -> Prop
  | unknownTag =>
      word ∉ literalWords ∧
        forall tag value, ':' ∉ tag.toList -> word = tag ++ ":" ++ value -> tag ∉ tagWords
  | missingValue => exists tag, tag ∈ tagWords ∧ word = tag ++ ":"
  | blankInValue =>
      exists tag value c,
        tag ∈ tagWords ∧ word = tag ++ ":" ++ value ∧ c ∈ value.toList ∧
          Text.isBlank c = true ∧ Text.isSeparator c = false
  | wrongLiteral => False

namespace Recipient

theorem read_of_unknownTag {word : String} (h : Objection.unknownTag.AppliesTo word) :
    read word = .error .unknownTag := by
  rcases h with ⟨hliteral, htag⟩
  have hword : Kind.ofLiteral? word = none := by
    apply Option.eq_none_iff_forall_ne_some.mpr
    intro kind hkind
    exact hliteral (mem_literalWords_iff.mpr ⟨kind, Kind.ofLiteral?_eq_some_iff.mp hkind⟩)
  rw [read_eq_makeFrom, makeFrom, hword]
  cases hsplit : splitTag? word with
  | none =>
      rfl
  | some cut =>
      rcases cut with ⟨tag, value⟩
      have hknown : Kind.ofTag? tag = none := by
        apply Option.eq_none_iff_forall_ne_some.mpr
        intro kind hkind
        exact htag tag value (colon_not_mem_of_splitTag? hsplit) (eq_of_splitTag? hsplit)
          (mem_tagWords_iff.mpr ⟨kind, Kind.ofTag?_eq_some_iff.mp hkind⟩)
      simp only [hknown]

theorem unknownTag_applies {word : String} (hliteral : Kind.ofLiteral? word = none)
    (htag : forall tag value, splitTag? word = some (tag, value) -> Kind.ofTag? tag = none) :
    Objection.unknownTag.AppliesTo word := by
  constructor
  · intro hmem
    rcases mem_literalWords_iff.mp hmem with ⟨kind, hform⟩
    rw [Kind.ofLiteral?_eq_some_iff.mpr hform] at hliteral
    cases hliteral
  · intro tag value hcolon hword hmem
    rcases mem_tagWords_iff.mp hmem with ⟨kind, hform⟩
    have hsplit : splitTag? word = some (tag, value) := by
      rw [hword]
      exact splitTag?_tagged hcolon value
    have hknown := htag tag value hsplit
    rw [Kind.ofTag?_eq_some_iff.mpr hform] at hknown
    cases hknown

/-!
## Refused words
-/

theorem applies_of_make_error {kind : Kind} {tag value : String}
    (hform : kind.form = .tagged tag)
    (hvalue : forall c, c ∈ value.toList -> Text.isSeparator c = false) {objection : Objection}
    (h : make kind value = .error objection) : objection.AppliesTo (tag ++ ":" ++ value) := by
  have htag : tag ∈ tagWords := mem_tagWords_iff.mpr ⟨kind, hform⟩
  rw [make_eq_error_iff, Kind.objection?_tagged hform] at h
  split at h
  · rename_i hempty
    cases h
    refine ⟨tag, htag, ?_⟩
    rw [hempty, String.append_empty]
  · split at h
    · rename_i hany
      cases h
      rcases List.any_eq_true.mp hany with ⟨c, hc, hblank⟩
      exact ⟨tag, value, c, htag, rfl, hc, hblank, hvalue c hc⟩
    · cases h

theorem applies_of_read_error {word : String}
    (hword : forall c, c ∈ word.toList -> Text.isSeparator c = false) {objection : Objection}
    (h : read word = .error objection) : objection.AppliesTo word := by
  have hunknown (happlies : Objection.unknownTag.AppliesTo word) : objection.AppliesTo word := by
    rw [read_of_unknownTag happlies] at h
    cases h
    exact happlies
  cases hliteral : Kind.ofLiteral? word with
  | some kind =>
      have hform := Kind.ofLiteral?_eq_some_iff.mp hliteral
      rw [read_eq_makeFrom, makeFrom] at h
      simp [hliteral, make_eq_error_iff, Kind.objection?, hform] at h
  | none =>
      cases hsplit : splitTag? word with
      | none =>
          apply hunknown
          apply unknownTag_applies hliteral
          intro tag value hcut
          rw [hsplit] at hcut
          cases hcut
      | some cut =>
          cases hknown : Kind.ofTag? cut.1 with
          | none =>
              apply hunknown
              apply unknownTag_applies hliteral
              intro tag value hcut
              rw [hsplit] at hcut
              cases hcut
              exact hknown
          | some kind =>
              have hform := Kind.ofTag?_eq_some_iff.mp hknown
              have hwritten := eq_of_splitTag? hsplit
              rw [hwritten, read_tagged hform] at h
              rw [hwritten]
              apply applies_of_make_error hform _ h
              intro c hc
              apply hword c
              rw [hwritten]
              simp [hc]

theorem read_error_of_applies {word : String} {objection : Objection}
    (h : objection.AppliesTo word) : read word = .error objection := by
  cases objection with
  | unknownTag =>
      exact read_of_unknownTag h
  | missingValue =>
      rcases h with ⟨tag, hmem, rfl⟩
      rcases mem_tagWords_iff.mp hmem with ⟨kind, hform⟩
      rw [<- String.append_empty (s := tag ++ ":"), read_tagged hform, make_eq_error_iff,
        Kind.objection?_tagged hform, if_pos rfl]
  | blankInValue =>
      rcases h with ⟨tag, value, c, hmem, rfl, hc, hblank, -⟩
      rcases mem_tagWords_iff.mp hmem with ⟨kind, hform⟩
      have hvalue : value ≠ "" := by
        rintro rfl
        simp at hc
      have hany : value.toList.any Text.isBlank = true := List.any_eq_true.mpr ⟨c, hc, hblank⟩
      rw [read_tagged hform, make_eq_error_iff, Kind.objection?_tagged hform, if_neg hvalue,
        if_pos hany]
  | wrongLiteral =>
      exact h.elim

theorem read_eq_error_iff {word : String}
    (hword : forall c, c ∈ word.toList -> Text.isSeparator c = false) {objection : Objection} :
    read word = .error objection ↔ objection.AppliesTo word :=
  ⟨applies_of_read_error hword, read_error_of_applies⟩

end Recipient
end AccessRules
