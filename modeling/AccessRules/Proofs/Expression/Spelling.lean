import AccessRules.Proofs.Rule.Labels
import AccessRules.Proofs.Rule.Spelling
import AccessRules.Proofs.Expression.Shape

/-!
# The terms that rules spell

The spelling of a rule joins its operands two at a time, from the left. Where
every node has the operands for that, the spelling is the tokens of a term, and
reading the term joins the same operands into the same node again.
-/

namespace AccessRules
namespace Expression

open Rule

/-!
## Joining many operands two at a time
-/

namespace Term

def chain (junction : Junction) (first : Term) (rest : List Term) : Term :=
  rest.foldl (joined junction) first

/-- The term that joins the operands of a node, if there is one. -/
def ofOperands? : Connective -> List Term -> Option Term
  | .not, [inner] => some (negation inner)
  | .and, first :: rest => some (chain .and first rest)
  | .or, first :: rest => some (chain .or first rest)
  | _, _ => none

theorem ofOperands?_junction (junction : Junction) (first : Term) (rest : List Term) :
    ofOperands? junction.connective (first :: rest) = some (chain junction first rest) := by
  cases junction <;> rfl

theorem ofOperands?_eq_some {connective : Connective} {operands : List Term} {term : Term}
    (h : ofOperands? connective operands = some term) :
    (exists inner, connective = .not ∧ operands = [inner] ∧ term = negation inner) ∨
      exists junction first rest,
        connective = Junction.connective junction ∧ operands = first :: rest ∧
          term = chain junction first rest := by
  unfold ofOperands? at h
  split at h
  · cases h
    exact Or.inl ⟨_, rfl, rfl, rfl⟩
  · cases h
    exact Or.inr ⟨.and, _, _, rfl, rfl, rfl⟩
  · cases h
    exact Or.inr ⟨.or, _, _, rfl, rfl, rfl⟩
  · cases h

theorem tokens_chain (junction : Junction) (first : Term) (rest : List Term) :
    (chain junction first rest).tokens =
      first.tokens ++
        rest.flatMap fun operand => operand.tokens ++ [.connective junction.connective] := by
  induction rest generalizing first with
  | nil =>
      simp [chain]
  | cons second rest ih =>
      have hstep := ih (joined junction first second)
      rw [tokens] at hstep
      simpa [chain] using hstep

/-- A chain reads as one node with all of its operands. -/
theorem operand_chain (junction : Junction) (first second : Term) (rest : List Term) :
    (chain junction first (second :: rest)).operand =
      join junction.connective ((first :: second :: rest).map operand) := by
  induction rest generalizing first second with
  | nil =>
      rfl
  | cons third rest ih =>
      have hstep := ih (joined junction first second) third
      have hjoin := joined_join junction.connective_ne_not [] [first.operand, second.operand]
        ((third :: rest).map operand)
      rw [List.nil_append, List.nil_append] at hjoin
      rw [join, List.map_cons, operand, hjoin] at hstep
      exact hstep

end Term

/-!
## The term of a rule
-/

mutual

/-- The term that the rule spells, with the recipients as their tokens read. -/
def termOf? : Rule -> Option Term
  | ⟨connective, recipients, parts⟩ =>
      match termsOf? parts with
      | some terms =>
          Term.ofOperands? connective
            (recipients.map (fun lone => .recipient lone.unlabelled) ++ terms)
      | none => none

def termsOf? : List Rule -> Option (List Term)
  | [] => some []
  | rule :: rest =>
      match termOf? rule, termsOf? rest with
      | some term, some terms => some (term :: terms)
      | _, _ => none

end

theorem termOf?_eq_some {rule : Rule} {term : Term} (h : termOf? rule = some term) :
    exists terms,
      termsOf? rule.parts = some terms ∧
        Term.ofOperands? rule.connective
          (rule.recipients.map (fun lone => .recipient lone.unlabelled) ++ terms) = some term := by
  cases rule
  rw [termOf?] at h
  split at h
  · rename_i terms hterms
    exact ⟨terms, hterms, h⟩
  · cases h

theorem termsOf?_cons_eq_some {rule : Rule} {rest : List Rule} {terms : List Term}
    (h : termsOf? (rule :: rest) = some terms) :
    exists term later,
      termOf? rule = some term ∧ termsOf? rest = some later ∧ terms = term :: later := by
  rw [termsOf?] at h
  split at h
  · rename_i term later hterm hlater
    cases h
    exact ⟨term, later, hterm, hlater, rfl⟩
  · cases h

/-!
A relation that every node takes over from its parts holds between all rules and the terms
that they spell.
-/

mutual

theorem termOf?_induction {motive : Rule -> Term -> Prop}
    (node : forall connective recipients parts terms term,
      List.Forall₂ motive parts terms ->
        Term.ofOperands? connective
            (recipients.map (fun lone => .recipient lone.unlabelled) ++ terms) = some term ->
          motive ⟨connective, recipients, parts⟩ term) :
    (rule : Rule) -> forall term, termOf? rule = some term -> motive rule term
  | ⟨connective, recipients, parts⟩ => by
      intro term h
      rcases termOf?_eq_some h with ⟨terms, hterms, hjoined⟩
      have hparts := termsOf?_induction node parts terms hterms
      exact node connective recipients parts terms term hparts hjoined

theorem termsOf?_induction {motive : Rule -> Term -> Prop}
    (node : forall connective recipients parts terms term,
      List.Forall₂ motive parts terms ->
        Term.ofOperands? connective
            (recipients.map (fun lone => .recipient lone.unlabelled) ++ terms) = some term ->
          motive ⟨connective, recipients, parts⟩ term) :
    (rules : List Rule) -> forall terms, termsOf? rules = some terms ->
      List.Forall₂ motive rules terms
  | [] => by
      intro terms h
      cases h
      exact List.Forall₂.nil
  | rule :: rest => by
      intro terms h
      rcases termsOf?_cons_eq_some h with ⟨term, later, hterm, hlater, rfl⟩
      exact List.Forall₂.cons (termOf?_induction node rule term hterm)
        (termsOf?_induction node rest later hlater)

end

theorem exists_rule_of_mem {relation : Rule -> Term -> Prop} {rules : List Rule}
    {terms : List Term} (h : List.Forall₂ relation rules terms) {term : Term}
    (hterm : term ∈ terms) : exists rule, rule ∈ rules ∧ relation rule term := by
  induction h with
  | nil =>
      cases hterm
  | cons hfirst _ ih =>
      rcases List.mem_cons.mp hterm with rfl | hlater
      · exact ⟨_, List.mem_cons_self, hfirst⟩
      · rcases ih hlater with ⟨rule, hrule, hrelated⟩
        exact ⟨rule, List.mem_cons_of_mem _ hrule, hrelated⟩

theorem map_eq_map_of_forall₂ {left : Rule -> α} {right : Term -> α} {rules : List Rule}
    {terms : List Term} (h : List.Forall₂ (fun rule term => right term = left rule) rules terms) :
    terms.map right = rules.map left := by
  induction h with
  | nil =>
      rfl
  | cons hfirst _ ih =>
      rw [List.map_cons, List.map_cons, hfirst, ih]

/-!
## The spelling is the tokens of the term
-/

theorem words_ofOperands? {connective : Connective} {operands : List Term} {term : Term}
    (h : Term.ofOperands? connective operands = some term) :
    term.tokens.map Token.word =
      joinOperands connective
        (operands.map fun operand => operand.tokens.map Token.word) := by
  rcases Term.ofOperands?_eq_some h with
    ⟨inner, rfl, rfl, rfl⟩ | ⟨junction, first, rest, rfl, rfl, rfl⟩
  · simp [Term.tokens, joinOperands, leadingKeyword, Connective.isUnary, Connective.arity,
      Token.word]
  · have hleading : leadingKeyword junction.connective = [] := by
      cases junction <;> rfl
    rw [Term.tokens_chain]
    simp [joinOperands, hleading, List.flatMap_map, List.map_flatMap, Token.word]

theorem words_termOf? {rule : Rule} {term : Term} (h : termOf? rule = some term) :
    term.tokens.map Token.word = rule.tokens := by
  apply termOf?_induction _ rule term h
  intro connective recipients parts terms term hparts hjoined
  have hspelled : (terms.map fun term => term.tokens.map Token.word) = spelledTrees parts := by
    rw [<- map_tokens_eq_spelledTrees]
    exact map_eq_map_of_forall₂ hparts
  rw [words_ofOperands? hjoined, tokens_eq_spelledTree, spelledTree, List.map_append, hspelled,
    List.map_map]
  rfl

/-!
## The term of a rule has no labels
-/

namespace Term

theorem isUnlabelled_chain {junction : Junction} {first : Term} {rest : List Term}
    (h : forall operand, operand ∈ first :: rest -> operand.IsUnlabelled) :
    (chain junction first rest).IsUnlabelled := by
  induction rest generalizing first with
  | nil =>
      exact h first (by simp)
  | cons second rest ih =>
      apply ih
      intro operand hoperand
      cases hoperand with
      | head =>
          exact isUnlabelled_joined.mpr ⟨h first (by simp), h second (by simp)⟩
      | tail _ hrest =>
          exact h operand (List.mem_cons_of_mem _ (List.mem_cons_of_mem _ hrest))

theorem isUnlabelled_ofOperands? {connective : Connective} {operands : List Term} {term : Term}
    (hoperands : forall operand, operand ∈ operands -> operand.IsUnlabelled)
    (h : ofOperands? connective operands = some term) : term.IsUnlabelled := by
  rcases ofOperands?_eq_some h with
    ⟨inner, rfl, rfl, rfl⟩ | ⟨junction, first, rest, rfl, rfl, rfl⟩
  · exact isUnlabelled_negation.mpr (hoperands inner (by simp))
  · exact isUnlabelled_chain hoperands

end Term

theorem isUnlabelled_termOf? {rule : Rule} {term : Term} (h : termOf? rule = some term) :
    term.IsUnlabelled := by
  apply termOf?_induction _ rule term h
  intro connective recipients parts terms term hparts hjoined
  apply Term.isUnlabelled_ofOperands? _ hjoined
  intro operand hoperand
  rcases List.mem_append.mp hoperand with hrecipient | hpart
  · rcases List.mem_map.mp hrecipient with ⟨lone, -, rfl⟩
    rfl
  · rcases exists_rule_of_mem hparts hpart with ⟨part, -, hunlabelled⟩
    exact hunlabelled

/-- A rule with a term is spelled by a text of that term. -/
theorem spelledBy_spell {rule : Rule} {term : Term} (h : termOf? rule = some term) :
    term.SpelledBy rule.spell := by
  apply Term.spelledBy_iff.mpr
  constructor
  · rw [spell, <- words_termOf? h, words_spaced]
  · exact isUnlabelled_termOf? h

end Expression
end AccessRules
