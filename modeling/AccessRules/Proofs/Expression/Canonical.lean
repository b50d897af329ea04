import AccessRules.Proofs.Expression.Rearrangement
import AccessRules.Proofs.Expression.RoundTrip

/-!
# Canonical texts

The canonical text of an expression spells the term of its rule, and the term of the
expression can be rearranged into that one. So the canonical text has the tokens of the
expression in another order, it is its own canonical text, and the rule can be told
from it.
-/

namespace AccessRules
namespace Expression

open Rule

/-!
## The canonical text of an accepted expression
-/

theorem canonicalText_eq_ok_iff {limit : Nat} {text canonical : String} :
    canonicalText limit text = .ok canonical ↔
      exists rule, parse limit text = .ok rule ∧ rule.normalForm.spell = canonical := by
  rw [canonicalText]
  cases parse limit text with
  | error fault =>
      simp [Except.map]
  | ok rule =>
      simp [Except.map]

theorem normalForm_of_parse {limit : Nat} {text : String} {rule : Rule}
    (h : parse limit text = .ok rule) : rule.normalForm = rule :=
  normalForm_of_isNormal rule (isNormal_of_isReadable (reading_of_parse h).1)

theorem canonicalText_of_parse {limit : Nat} {text : String} {rule : Rule}
    (h : parse limit text = .ok rule) : canonicalText limit text = .ok rule.spell :=
  canonicalText_eq_ok_iff.mpr ⟨rule, h, congrArg spell (normalForm_of_parse h)⟩

theorem spell_of_canonicalText {limit : Nat} {text canonical : String}
    (h : canonicalText limit text = .ok canonical) :
    exists rule, parse limit text = .ok rule ∧ rule.spell = canonical := by
  rcases canonicalText_eq_ok_iff.mp h with ⟨rule, hrule, hspell⟩
  rw [normalForm_of_parse hrule] at hspell
  exact ⟨rule, hrule, hspell⟩

theorem parse_spell_of_parse {limit : Nat} {text : String} {rule : Rule}
    (h : parse limit text = .ok rule) : parse limit rule.spell = .ok rule := by
  rcases reading_of_parse h with ⟨hreadable, hfits, hunlabelled⟩
  have hagain := parse_spell hreadable hfits
  rw [hunlabelled] at hagain
  exact hagain

/-!
## The words of a canonical text
-/

theorem spell_eq_intercalate_words {rule : Rule} {term : Term} (h : termOf? rule = some term) :
    rule.spell = " ".intercalate (Text.words rule.spell) := by
  have hwords := (Term.spelledBy_iff.mp (spelledBy_spell h)).1
  rw [words_termOf? h] at hwords
  rw [hwords, spell]

theorem words_spell_perm {limit : Nat} {text : String} {rule : Rule}
    (h : parse limit text = .ok rule) :
    (Text.words rule.spell).Perm (Text.words text) ∧
      rule.spell = " ".intercalate (Text.words rule.spell) := by
  rcases parse_eq_ok_iff.mp h with ⟨term, hterm, -, rfl⟩
  rcases rearranged_termOf?_rule (Term.isUnlabelled_of_spelledBy hterm) with
    ⟨canonical, hcanonical, hrearranged⟩
  constructor
  · rw [(Term.spelledBy_iff.mp hterm).1, (Term.spelledBy_iff.mp (spelledBy_spell hcanonical)).1]
    exact hrearranged.tokens_perm.symm.map Token.word
  · exact spell_eq_intercalate_words hcanonical

/-!
## Equal canonical texts
-/

theorem eq_of_same_of_parse {limit otherLimit : Nat} {text other : String} {rule otherRule : Rule}
    (h : parse limit text = .ok rule) (hother : parse otherLimit other = .ok otherRule)
    (hsame : rule.same otherRule = true) : rule = otherRule := by
  rw [<- (reading_of_parse h).2.2, <- (reading_of_parse hother).2.2]
  exact same_iff_unlabelled.mp hsame

theorem spell_eq_iff_same {limit : Nat} {text other : String} {rule otherRule : Rule}
    (h : parse limit text = .ok rule) (hother : parse limit other = .ok otherRule) :
    rule.spell = otherRule.spell ↔ rule.same otherRule = true := by
  constructor
  · intro hspell
    have hagain := parse_spell_of_parse h
    rw [hspell, parse_spell_of_parse hother] at hagain
    cases hagain
    exact same_refl rule
  · intro hsame
    rw [eq_of_same_of_parse h hother hsame]

/-- A canonical text has the words of the expression, in some order and with single
spaces between them, and it is its own canonical text. Two accepted expressions have
one canonical text just when they are read as the same rule. -/
theorem canonicalText_keeps_words_and_rule (limit : Nat) (text : String) :
    (forall canonical,
      canonicalText limit text = .ok canonical ->
        (Text.words canonical).Perm (Text.words text) ∧
          canonical = " ".intercalate (Text.words canonical) ∧
            canonicalText limit canonical = .ok canonical) ∧
      forall other rule otherRule,
        parse limit text = .ok rule -> parse limit other = .ok otherRule ->
          exists canonical otherCanonical,
            canonicalText limit text = .ok canonical ∧
              canonicalText limit other = .ok otherCanonical ∧
                (canonical = otherCanonical ↔ rule.same otherRule = true) := by
  constructor
  · intro canonical h
    rcases spell_of_canonicalText h with ⟨rule, hrule, rfl⟩
    rcases words_spell_perm hrule with ⟨hperm, hspaced⟩
    exact ⟨hperm, hspaced, canonicalText_of_parse (parse_spell_of_parse hrule)⟩
  · intro other rule otherRule hrule hother
    exact ⟨rule.spell, otherRule.spell, canonicalText_of_parse hrule,
      canonicalText_of_parse hother, spell_eq_iff_same hrule hother⟩

theorem canonicalText_keeps_words_and_rule_regrouped :
    exists rule,
      canonicalText 2 " U:a  U:b U:c NOT OR\tU:d OR OR" = .ok "U:a U:b OR U:d OR U:c NOT OR" ∧
        parse 2 " U:a  U:b U:c NOT OR\tU:d OR OR" = .ok rule ∧
          parse 2 "U:a U:b OR U:d U:c NOT OR OR" = .ok rule ∧
            (Text.words "U:a U:b OR U:d OR U:c NOT OR").Perm
                (Text.words " U:a  U:b U:c NOT OR\tU:d OR OR") ∧
              exists canonical otherCanonical,
                canonicalText 2 " U:a  U:b U:c NOT OR\tU:d OR OR" = .ok canonical ∧
                  canonicalText 2 "U:a U:b OR U:d U:c NOT OR OR" = .ok otherCanonical ∧
                    (canonical = otherCanonical ↔ rule.same rule = true) := by
  have h : parse 2 " U:a  U:b U:c NOT OR\tU:d OR OR" =
      .ok ⟨.or, [⟨.user, "a", "U:a", rfl⟩, ⟨.user, "b", "U:b", rfl⟩, ⟨.user, "d", "U:d", rfl⟩],
        [⟨.not, [⟨.user, "c", "U:c", rfl⟩], []⟩]⟩ := rfl
  have hother : parse 2 "U:a U:b OR U:d U:c NOT OR OR" =
      .ok ⟨.or, [⟨.user, "a", "U:a", rfl⟩, ⟨.user, "b", "U:b", rfl⟩, ⟨.user, "d", "U:d", rfl⟩],
        [⟨.not, [⟨.user, "c", "U:c", rfl⟩], []⟩]⟩ := rfl
  have hcanonical := canonicalText_of_parse h
  rw [spell, tokens_eq_spelledTree] at hcanonical
  have hwitness := canonicalText_keeps_words_and_rule 2 " U:a  U:b U:c NOT OR\tU:d OR OR"
  exact ⟨_, hcanonical, h, hother, (hwitness.1 _ hcanonical).1, hwitness.2 _ _ _ h hother⟩

end Expression
end AccessRules
