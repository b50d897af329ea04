import AccessRules.Expression.Term
import AccessRules.Proofs.Expression.Token
import AccessRules.Proofs.Expression.Operand

/-!
# Expressions read as terms

Whatever the stack holds while an expression is read, its operands stand for
terms, and the tokens taken so far are the tokens of those terms. So an
expression that is read spells exactly one term, and the rule depends on the
text by that term alone.
-/

namespace AccessRules
namespace Expression

/-!
## Junctions
-/

namespace Junction

theorem arity_connective (junction : Junction) : junction.connective.arity = 2 := by
  cases junction <;> rfl

theorem isUnary_connective (junction : Junction) : junction.connective.isUnary = false := by
  cases junction <;> rfl

theorem connective_ne_not (junction : Junction) : junction.connective ≠ .not := by
  cases junction <;> decide

theorem connective_injective {a b : Junction} (h : a.connective = b.connective) : a = b := by
  cases a <;> cases b <;> first | rfl | cases h

theorem eq_not_or (connective : Connective) :
    connective = .not ∨ exists junction : Junction, connective = junction.connective := by
  cases connective with
  | and =>
      exact Or.inr ⟨.and, rfl⟩
  | or =>
      exact Or.inr ⟨.or, rfl⟩
  | not =>
      exact Or.inl rfl

end Junction

namespace Term

/-!
## The operand of a term

A term is joined from the inside out, exactly as its tokens are taken.
-/

def operand : Term -> Operand
  | recipient lone => .recipient lone
  | negation inner => join .not [inner.operand]
  | joined junction left right => join junction.connective [left.operand, right.operand]

/-- The rule that the term reads as. -/
def rule (term : Term) : Rule :=
  term.operand.asRule

theorem wellFormed_operand (term : Term) : term.operand.WellFormed := by
  induction term with
  | recipient lone =>
      exact True.intro
  | negation inner ih =>
      apply wellFormed_join
      · simpa using ih
      · rfl
  | joined junction left right ihLeft ihRight =>
      apply wellFormed_join
      · simpa using ⟨ihLeft, ihRight⟩
      · exact junction.arity_connective.symm

/-- Both groupings of three operands under one junction are joined to one node. -/
theorem operand_regroup (junction : Junction) (a b c : Term) :
    (joined junction (joined junction a b) c).operand =
      (joined junction a (joined junction b c)).operand := by
  have hleft : Expression.joined junction.connective
        [join junction.connective [a.operand, b.operand], c.operand] =
      Expression.joined junction.connective [a.operand, b.operand, c.operand] :=
    joined_join junction.connective_ne_not [] [a.operand, b.operand] [c.operand]
  have hright : Expression.joined junction.connective
        [a.operand, join junction.connective [b.operand, c.operand]] =
      Expression.joined junction.connective [a.operand, b.operand, c.operand] :=
    joined_join junction.connective_ne_not [a.operand] [b.operand, c.operand] []
  have hnode := hleft.trans hright.symm
  exact congrArg (fun node => Operand.rule node.1 node.2) hnode

/-!
## Running the tokens of a term

The tokens of a term leave its operand on the stack. An inner operand is never
deeper than the one around it, so a run fails just when the whole term is too
deep.
-/

theorem run_keyword (limit position : Nat) (connective : Connective)
    (operands : List Operand) (hlength : operands.length = connective.arity)
    (rest : List Operand) :
    run limit position (operands.reverse ++ rest) [.connective connective] =
      if (join connective operands).depth ≤ limit then .ok (join connective operands :: rest)
      else .error (.tooDeep limit) := by
  rw [run_single, step_connective limit position hlength]
  by_cases hdepth : (join connective operands).depth ≤ limit
  · rw [if_neg (by omega), if_pos hdepth]
  · rw [if_pos (by omega), if_neg hdepth]

theorem run_tokens (limit : Nat) (term : Term) :
    forall position stack,
      run limit position stack term.tokens =
        if term.operand.depth ≤ limit then .ok (term.operand :: stack)
        else .error (.tooDeep limit) := by
  induction term with
  | recipient lone =>
      intro position stack
      rw [tokens, run_single]
      exact (if_pos (Nat.zero_le limit)).symm
  | negation inner ih =>
      intro position stack
      have hinner : inner.operand.depth ≤ (join .not [inner.operand]).depth :=
        depth_le_joined (by simp)
      have hkeyword := run_keyword limit (position + inner.tokens.length)
        .not [inner.operand] rfl stack
      rw [tokens, run_append, ih, operand]
      by_cases hdepth : inner.operand.depth ≤ limit
      · rw [if_pos hdepth]
        exact hkeyword
      · rw [if_neg hdepth, if_neg (by omega)]
        rfl
  | joined junction left right ihLeft ihRight =>
      intro position stack
      have hleft : left.operand.depth ≤
          (join junction.connective [left.operand, right.operand]).depth :=
        depth_le_joined (by simp)
      have hright : right.operand.depth ≤
          (join junction.connective [left.operand, right.operand]).depth :=
        depth_le_joined (by simp)
      have hkeyword := run_keyword limit (position + (left.tokens ++ right.tokens).length)
        junction.connective [left.operand, right.operand] junction.arity_connective.symm stack
      rw [tokens, run_append, run_append, ihLeft, operand]
      by_cases hdepthLeft : left.operand.depth ≤ limit
      · rw [if_pos hdepthLeft, Except.bind, ihRight]
        by_cases hdepthRight : right.operand.depth ≤ limit
        · rw [if_pos hdepthRight]
          exact hkeyword
        · rw [if_neg hdepthRight, if_neg (by omega)]
          rfl
      · rw [if_neg hdepthLeft, if_neg (by omega)]
        rfl

/-!
## The terms on the stack

The newest term is at the front, as on the stack. Its tokens are the last ones
taken.
-/

def spelled (terms : List Term) : List Token :=
  terms.reverse.flatMap tokens

@[simp] theorem spelled_cons (term : Term) (terms : List Term) :
    spelled (term :: terms) = spelled terms ++ term.tokens := by
  simp [spelled]

theorem step_terms {limit position : Nat} {terms : List Term} {token : Token}
    {stack : List Operand}
    (h : step limit position (terms.map operand) token = .ok stack) :
    exists later, stack = later.map operand ∧ spelled later = spelled terms ++ [token] := by
  cases token with
  | recipient lone =>
      cases h
      exact ⟨.recipient lone :: terms, rfl, spelled_cons _ _⟩
  | connective keyword =>
      rcases step_connective_ok h with ⟨operands, rest, hstack, hlength, rfl⟩
      rcases Junction.eq_not_or keyword with rfl | ⟨junction, rfl⟩
      · rcases List.length_eq_one_iff.mp hlength with ⟨operand, rfl⟩
        cases terms with
        | nil =>
            cases hstack
        | cons inner others =>
            cases hstack
            refine ⟨.negation inner :: others, rfl, ?_⟩
            simp [tokens]
      · rw [junction.arity_connective] at hlength
        match operands, hlength with
        | [first, second], _ =>
            match terms, hstack with
            | right :: left :: others, hstack =>
                cases hstack
                refine ⟨.joined junction left right :: others, rfl, ?_⟩
                simp [tokens]

theorem run_terms {limit : Nat} {tokens : List Token} :
    forall {position : Nat} {terms : List Term} {stack : List Operand},
      run limit position (terms.map operand) tokens = .ok stack ->
        exists later, stack = later.map operand ∧ spelled later = spelled terms ++ tokens := by
  induction tokens with
  | nil =>
      intro position terms stack h
      cases h
      exact ⟨terms, rfl, by simp⟩
  | cons token rest ih =>
      intro position terms stack h
      rw [run] at h
      split at h
      · rename_i next hstep
        rcases step_terms hstep with ⟨taken, rfl, htaken⟩
        rcases ih h with ⟨later, hlater, hspelled⟩
        refine ⟨later, hlater, ?_⟩
        rw [hspelled, htaken, List.append_assoc]
        rfl
      · cases h

/-!
## A text spells one term

The last token of a term tells how it is built. So the tokens of a term are told
apart from whatever stands before them, and no two terms have the same tokens.
-/

theorem tokens_suffix_injective {a b : Term} :
    forall {front other : List Token},
      front ++ a.tokens = other ++ b.tokens -> front = other ∧ a = b := by
  induction a generalizing b with
  | recipient lone =>
      intro front other h
      cases b with
      | recipient again =>
          rcases List.append_inj' h rfl with ⟨hfront, hlast⟩
          cases hlast
          exact ⟨hfront, rfl⟩
      | negation inner =>
          simp only [tokens, <- List.append_assoc] at h
          cases (List.append_inj' h rfl).2
      | joined junction left right =>
          simp only [tokens, <- List.append_assoc] at h
          cases (List.append_inj' h rfl).2
  | negation inner ih =>
      intro front other h
      simp only [tokens, <- List.append_assoc] at h
      cases b with
      | recipient again =>
          cases (List.append_inj' h rfl).2
      | negation again =>
          simp only [tokens, <- List.append_assoc] at h
          rcases ih (List.append_inj' h rfl).1 with ⟨hfront, hinner⟩
          exact ⟨hfront, congrArg negation hinner⟩
      | joined junction left right =>
          simp only [tokens, <- List.append_assoc] at h
          have hlast := (List.append_inj' h rfl).2
          cases junction <;> cases hlast
  | joined junction left right ihLeft ihRight =>
      intro front other h
      simp only [tokens, <- List.append_assoc] at h
      cases b with
      | recipient again =>
          cases (List.append_inj' h rfl).2
      | negation again =>
          simp only [tokens, <- List.append_assoc] at h
          have hlast := (List.append_inj' h rfl).2
          cases junction <;> cases hlast
      | joined otherJunction otherLeft otherRight =>
          simp only [tokens, <- List.append_assoc] at h
          rcases List.append_inj' h rfl with ⟨hoperands, hlast⟩
          rcases ihRight hoperands with ⟨hrest, hright⟩
          rcases ihLeft hrest with ⟨hfront, hleft⟩
          have hjunction : junction = otherJunction := by
            apply Junction.connective_injective
            simpa using hlast
          rw [hjunction, hleft, hright]
          exact ⟨hfront, rfl⟩

theorem tokens_injective {a b : Term} (h : a.tokens = b.tokens) : a = b := by
  have hempty : [] ++ a.tokens = [] ++ b.tokens := h
  exact (tokens_suffix_injective hempty).2

theorem tokens_ne_nil (term : Term) : term.tokens ≠ [] := by
  cases term <;> simp [tokens]

theorem eq_of_spelledBy {a b : Term} {text : String} (ha : a.SpelledBy text)
    (hb : b.SpelledBy text) : a = b := by
  unfold SpelledBy at ha hb
  rw [ha] at hb
  apply tokens_injective
  exact Except.ok.inj hb

theorem spelledBy_iff_eq {a : Term} {text : String} (ha : a.SpelledBy text) (term : Term) :
    term.SpelledBy text ↔ term = a := by
  constructor
  · intro hterm
    exact eq_of_spelledBy hterm ha
  · rintro rfl
    exact ha

end Term

/-!
## The rule of a text
-/

theorem parse_of_spelledBy {term : Term} {text : String} (h : term.SpelledBy text)
    (limit : Nat) :
    parse limit text =
      if term.operand.depth ≤ limit then .ok term.rule else .error (.tooDeep limit) := by
  unfold Term.SpelledBy at h
  rw [parse_eq_bind, h]
  simp only [Except.bind, Term.run_tokens]
  by_cases hdepth : term.operand.depth ≤ limit
  · rw [if_pos hdepth, if_pos hdepth]
    exact finish_eq_ok_iff.mpr ⟨term.operand, rfl, rfl⟩
  · rw [if_neg hdepth, if_neg hdepth]

theorem spelledBy_of_parse {limit : Nat} {text : String} {rule : Rule}
    (h : parse limit text = .ok rule) : exists term : Term, term.SpelledBy text := by
  rw [parse_eq_bind] at h
  cases htokens : tokensOf (Text.words text) with
  | error fault =>
      rw [htokens] at h
      cases h
  | ok tokens =>
      rw [htokens] at h
      cases hrun : run limit 0 [] tokens with
      | error fault =>
          simp only [Except.bind, hrun] at h
          cases h
      | ok stack =>
          simp only [Except.bind, hrun] at h
          rcases finish_eq_ok_iff.mp h with ⟨operand, hstack, -⟩
          have hempty : run limit 0 (([] : List Term).map Term.operand) tokens = .ok stack := hrun
          rcases Term.run_terms hempty with ⟨terms, hterms, hspelled⟩
          rw [hstack] at hterms
          match terms, hterms with
          | [term], _ =>
              have htaken : tokens = term.tokens := by
                simpa [Term.spelled] using hspelled.symm
              refine ⟨term, ?_⟩
              rw [Term.SpelledBy, htokens, htaken]

theorem parse_eq_ok_iff {limit : Nat} {text : String} {rule : Rule} :
    parse limit text = .ok rule ↔
      exists term : Term,
        term.SpelledBy text ∧ term.operand.depth ≤ limit ∧ term.rule = rule := by
  constructor
  · intro h
    rcases spelledBy_of_parse h with ⟨term, hterm⟩
    rw [parse_of_spelledBy hterm] at h
    split at h
    · rename_i hdepth
      cases h
      exact ⟨term, hterm, hdepth, rfl⟩
    · cases h
  · rintro ⟨term, hterm, hdepth, rfl⟩
    rw [parse_of_spelledBy hterm, if_pos hdepth]

end Expression
end AccessRules
