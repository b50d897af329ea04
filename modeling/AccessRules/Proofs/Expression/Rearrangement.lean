import Mathlib.Data.List.Perm.Basic
import AccessRules.Expression.Term
import AccessRules.Proofs.Expression.Spelling
import AccessRules.Proofs.Rule.Equivalence

/-!
# Rearranging terms

A chain of equal junctions can be rearranged into a chain of the same operands in
any order. So every term can be rearranged into the term that its rule spells,
and the terms of equivalent rules into each other.
-/

namespace AccessRules
namespace Expression

open Rule

namespace Term

/-!
## What a rearrangement keeps
-/

/-- No token is dropped, doubled or exchanged for another. -/
theorem Rearranged.tokens_perm {a b : Term} (h : Rearranged a b) :
    a.tokens.Perm b.tokens := by
  induction h with
  | refl term =>
      exact List.Perm.refl term.tokens
  | symm _ ih =>
      exact ih.symm
  | trans _ _ ih ihLater =>
      exact ih.trans ihLater
  | negation _ ih =>
      exact ih.append_right _
  | joined junction _ _ ihLeft ihRight =>
      exact (ihLeft.append ihRight).append_right _
  | swap junction a b =>
      exact List.perm_append_comm.append_right _
  | regroup junction a b c =>
      have hkeyword : (Token.connective junction.connective :: c.tokens).Perm
          (c.tokens ++ [Token.connective junction.connective]) :=
        (List.perm_append_singleton _ _).symm
      have hbehind := (hkeyword.append_left (a.tokens ++ b.tokens)).append_right
        [Token.connective junction.connective]
      simpa [tokens, List.append_assoc] using hbehind

instance : Std.Refl Rearranged := ⟨Rearranged.refl⟩

/-!
## Chains
-/

theorem rearranged_chain (junction : Junction) {first other : Term} {rest others : List Term}
    (hfirst : Rearranged first other) (hrest : List.Forall₂ Rearranged rest others) :
    Rearranged (chain junction first rest) (chain junction other others) := by
  induction hrest generalizing first other with
  | nil =>
      exact hfirst
  | cons hnext _ ih =>
      exact ih (Rearranged.joined junction hfirst hnext)

theorem rearranged_joined_chain (junction : Junction) (front first : Term) (rest : List Term) :
    Rearranged (joined junction front (chain junction first rest))
      (chain junction (joined junction front first) rest) := by
  induction rest generalizing first with
  | nil =>
      exact Rearranged.refl _
  | cons second rest ih =>
      have hgrouped : Rearranged (joined junction front (joined junction first second))
          (joined junction (joined junction front first) second) :=
        Rearranged.symm (Rearranged.regroup junction front first second)
      have hfolded := rearranged_chain junction hgrouped (List.forall₂_refl rest)
      exact Rearranged.trans (ih (joined junction first second)) hfolded

/-- Two chains that are joined become one. -/
theorem rearranged_chain_append (junction : Junction) (first second : Term)
    (rest later : List Term) :
    Rearranged (joined junction (chain junction first rest) (chain junction second later))
      (chain junction first (rest ++ second :: later)) := by
  have happend : chain junction first (rest ++ second :: later) =
      chain junction (joined junction (chain junction first rest) second) later := by
    simp [chain]
  rw [happend]
  exact rearranged_joined_chain junction (chain junction first rest) second later

theorem rearranged_chain_of_perm_rest (junction : Junction) {rest others : List Term}
    (h : rest.Perm others) :
    forall first, Rearranged (chain junction first rest) (chain junction first others) := by
  induction h with
  | nil =>
      intro first
      exact Rearranged.refl _
  | cons second _ ih =>
      intro first
      exact ih (joined junction first second)
  | swap second third rest =>
      intro first
      have hswapped : Rearranged (joined junction (joined junction first third) second)
          (joined junction (joined junction first second) third) :=
        (Rearranged.regroup junction first third second).trans
          (((Rearranged.refl first).joined junction (Rearranged.swap junction third second)).trans
            (Rearranged.regroup junction first second third).symm)
      have hfolded := rearranged_chain junction hswapped (List.forall₂_refl rest)
      exact hfolded
  | trans _ _ ih ihLater =>
      intro first
      exact Rearranged.trans (ih first) (ihLater first)

theorem rearranged_chain_of_perm (junction : Junction) {terms others : List Term}
    (h : terms.Perm others) :
    forall first rest second later,
      terms = first :: rest -> others = second :: later ->
        Rearranged (chain junction first rest) (chain junction second later) := by
  induction h with
  | nil =>
      intro first rest second later hterms
      cases hterms
  | cons front hrest _ =>
      intro first rest second later hterms hothers
      cases hterms
      cases hothers
      exact rearranged_chain_of_perm_rest junction hrest front
  | swap a b tail =>
      intro first rest second later hterms hothers
      cases hterms
      cases hothers
      have hfolded := rearranged_chain junction (Rearranged.swap junction b a)
        (List.forall₂_refl tail)
      exact hfolded
  | @trans _ middle _ hfirst _ ih ihLater =>
      intro first rest second later hterms hothers
      cases middle with
      | nil =>
          rw [hterms] at hfirst
          cases hfirst.eq_nil
      | cons between tail =>
          exact Rearranged.trans (ih first rest between tail hterms rfl)
            (ihLater between tail second later rfl hothers)

/-!
## Terms with the same operands
-/

theorem rearranged_ofOperands? {connective : Connective} {operands paired others : List Term}
    (hpaired : List.Forall₂ Rearranged operands paired) (hperm : paired.Perm others)
    {a b : Term} (ha : ofOperands? connective operands = some a)
    (hb : ofOperands? connective others = some b) : Rearranged a b := by
  rcases ofOperands?_eq_some ha with
    ⟨inner, rfl, rfl, rfl⟩ | ⟨junction, first, rest, rfl, rfl, rfl⟩
  · cases hpaired with
    | cons hinner hnone =>
        cases hnone
        rw [List.perm_singleton.mp hperm.symm] at hb
        cases hb
        exact Rearranged.negation hinner
  · cases hpaired with
    | cons hfirst hrest =>
        cases others with
        | nil =>
            cases hperm.eq_nil
        | cons second later =>
            rw [ofOperands?_junction] at hb
            cases hb
            exact Rearranged.trans (rearranged_chain junction hfirst hrest)
              (rearranged_chain_of_perm junction hperm _ _ _ _ rfl rfl)

/-- Whether operands can be joined is a matter of their number. -/
theorem exists_ofOperands? {connective : Connective} {operands others : List Term}
    (hlength : operands.length = others.length) {term : Term}
    (h : ofOperands? connective operands = some term) :
    exists other, ofOperands? connective others = some other := by
  rcases ofOperands?_eq_some h with
    ⟨inner, rfl, rfl, rfl⟩ | ⟨junction, first, rest, rfl, rfl, rfl⟩
  · match others, hlength with
    | [other], _ =>
        exact ⟨negation other, rfl⟩
  · match others, hlength with
    | second :: later, _ =>
        exact ⟨chain junction second later, ofOperands?_junction junction second later⟩

theorem exists_rearranged_ofOperands? {connective : Connective}
    {operands paired others : List Term} (hpaired : List.Forall₂ Rearranged operands paired)
    (hperm : paired.Perm others) {term : Term}
    (h : ofOperands? connective operands = some term) :
    exists other, ofOperands? connective others = some other ∧ Rearranged term other := by
  rcases exists_ofOperands? (hpaired.length_eq.trans hperm.length_eq) h with ⟨other, hother⟩
  exact ⟨other, hother, rearranged_ofOperands? hpaired hperm h hother⟩

theorem rearranged_joined_ofOperands? {junction : Junction} {left right : List Term} {a b : Term}
    (ha : ofOperands? junction.connective left = some a)
    (hb : ofOperands? junction.connective right = some b) :
    exists whole,
      ofOperands? junction.connective (left ++ right) = some whole ∧
        Rearranged (joined junction a b) whole := by
  cases left with
  | nil =>
      cases junction <;> cases ha
  | cons first rest =>
      cases right with
      | nil =>
          cases junction <;> cases hb
      | cons second later =>
          rw [ofOperands?_junction] at ha hb
          cases ha
          cases hb
          exact ⟨_, ofOperands?_junction junction first (rest ++ second :: later),
            rearranged_chain_append junction first second rest later⟩

/-!
## Operands that are joined already

Where an operand of a junction is itself joined from several terms, these may take its
place among the operands.
-/

/-- In a node of the connective the terms come to the same as the operand. -/
def StandFor (connective : Connective) (terms : List Term) (operand : Term) : Prop :=
  terms = [operand] ∨ connective ≠ .not ∧ ofOperands? connective terms = some operand

theorem ofOperands?_of_standFor {junction : Junction} {terms : List Term} {operand : Term}
    (h : StandFor junction.connective terms operand) :
    ofOperands? junction.connective terms = some operand := by
  rcases h with rfl | ⟨-, hjoined⟩
  · exact ofOperands?_junction junction operand []
  · exact hjoined

theorem rearranged_chain_flatten {junction : Junction} {groups : List (List Term)}
    {rest : List Term} (hgroups : List.Forall₂ (StandFor junction.connective) groups rest) :
    forall {group first}, ofOperands? junction.connective group = some first ->
      exists whole,
        ofOperands? junction.connective (group ++ groups.flatten) = some whole ∧
          Rearranged (chain junction first rest) whole := by
  induction hgroups with
  | nil =>
      intro group first hfirst
      rw [List.flatten_nil, List.append_nil]
      exact ⟨first, hfirst, Rearranged.refl first⟩
  | @cons next second groups rest hsecond _ ih =>
      intro group first hfirst
      rcases rearranged_joined_ofOperands? hfirst (ofOperands?_of_standFor hsecond) with
        ⟨pair, hpair, hjoined⟩
      rcases ih hpair with ⟨whole, hwhole, hlater⟩
      have hchain := rearranged_chain junction hjoined (List.forall₂_refl rest)
      rw [List.flatten_cons, <- List.append_assoc]
      exact ⟨whole, hwhole, hchain.trans hlater⟩

theorem rearranged_ofOperands?_flatten {connective : Connective} {groups : List (List Term)}
    {operands : List Term} (hgroups : List.Forall₂ (StandFor connective) groups operands)
    {term : Term} (h : ofOperands? connective operands = some term) :
    exists whole,
      ofOperands? connective groups.flatten = some whole ∧ Rearranged term whole := by
  rcases ofOperands?_eq_some h with
    ⟨inner, rfl, rfl, rfl⟩ | ⟨junction, first, rest, rfl, rfl, rfl⟩
  · cases hgroups with
    | cons hinner hnone =>
        cases hnone
        rcases hinner with rfl | ⟨hbinary, -⟩
        · exact ⟨negation inner, rfl, Rearranged.refl _⟩
        · exact absurd rfl hbinary
  · cases hgroups with
    | cons hfirst hrest =>
        exact rearranged_chain_flatten hrest (ofOperands?_of_standFor hfirst)

end Term

/-!
## Nodes gathered into one

Each of the gathered nodes brings an operand, either whole or taken apart. The node that
holds what they all bring spells the same operands, but its recipients come first.
-/

theorem termsOf?_eq_some_iff {rules : List Rule} {terms : List Term} :
    termsOf? rules = some terms ↔
      List.Forall₂ (fun rule term => termOf? rule = some term) rules terms := by
  induction rules generalizing terms with
  | nil =>
      simp [termsOf?, eq_comm]
  | cons rule rest ih =>
      constructor
      · intro h
        rcases termsOf?_cons_eq_some h with ⟨term, later, hterm, hlater, rfl⟩
        exact List.Forall₂.cons hterm (ih.mp hlater)
      · intro h
        cases h with
        | cons hterm hlater =>
            rw [termsOf?, hterm, ih.mpr hlater]

theorem termsOf?_append {left right : List Rule} {terms later : List Term}
    (hleft : termsOf? left = some terms) (hright : termsOf? right = some later) :
    termsOf? (left ++ right) = some (terms ++ later) := by
  rw [termsOf?_eq_some_iff] at hleft hright ⊢
  exact List.rel_append hleft hright

/-- What the node holds comes to the same as the operand, in a node of the connective. -/
def Brings (connective : Connective) (node : Rule) (operand : Term) : Prop :=
  exists terms,
    termsOf? node.parts = some terms ∧
      Term.StandFor connective
        (node.recipients.map (fun lone => .recipient lone.unlabelled) ++ terms) operand

theorem brings_recipient (connective : Connective) (lone : Recipient) :
    Brings connective (single connective lone) (.recipient lone.unlabelled) :=
  ⟨[], rfl, Or.inl rfl⟩

theorem brings_part (connective : Connective) {part : Rule} {term : Term}
    (h : termOf? part = some term) : Brings connective ⟨connective, [], [part]⟩ term :=
  ⟨[term], termsOf?_eq_some_iff.mpr (List.Forall₂.cons h List.Forall₂.nil), Or.inl rfl⟩

theorem brings_spliced {connective : Connective} {part : Rule} {term : Term}
    (habsorbs : connective.absorbs part.connective = true) (h : termOf? part = some term) :
    Brings connective ⟨connective, part.recipients, part.parts⟩ term := by
  rcases Connective.absorbs_iff.mp habsorbs with ⟨hsame, hbinary⟩
  rcases termOf?_eq_some h with ⟨terms, hterms, hjoined⟩
  rw [<- hsame] at hjoined
  exact ⟨terms, hterms, Or.inr ⟨hbinary, hjoined⟩⟩

theorem groups_of_brings {connective : Connective} {nodes : List Rule} {operands : List Term}
    (h : List.Forall₂ (Brings connective) nodes operands) :
    exists groups terms,
      List.Forall₂ (Term.StandFor connective) groups operands ∧
        termsOf? (nodes.flatMap Rule.parts) = some terms ∧
          groups.flatten.Perm
            ((nodes.flatMap Rule.recipients).map (fun lone => .recipient lone.unlabelled) ++
              terms) := by
  induction h with
  | nil =>
      exact ⟨[], [], List.Forall₂.nil, rfl, List.Perm.refl _⟩
  | cons hfirst _ ih =>
      rcases hfirst with ⟨brought, hbrought, hstand⟩
      rcases ih with ⟨groups, terms, hgroups, hterms, hperm⟩
      refine ⟨_ :: groups, brought ++ terms, List.Forall₂.cons hstand hgroups, ?_, ?_⟩
      · rw [List.flatMap_cons]
        exact termsOf?_append hbrought hterms
      · rw [List.flatten_cons, List.flatMap_cons, List.map_append, List.append_assoc,
          List.append_assoc]
        have hlater := (hperm.append_left brought).trans (List.perm_append_comm_assoc _ _ _)
        exact hlater.append_left _

theorem rearranged_termOf?_gathered {connective : Connective} {nodes : List Rule}
    {operands : List Term} (hnodes : List.Forall₂ (Brings connective) nodes operands)
    {term : Term} (h : Term.ofOperands? connective operands = some term) :
    exists canonical,
      termOf? ⟨connective, nodes.flatMap Rule.recipients, nodes.flatMap Rule.parts⟩ =
          some canonical ∧
        Term.Rearranged term canonical := by
  rcases groups_of_brings hnodes with ⟨groups, terms, hgroups, hterms, hperm⟩
  rcases Term.rearranged_ofOperands?_flatten hgroups h with ⟨whole, hwhole, hflat⟩
  rcases Term.exists_rearranged_ofOperands? (List.forall₂_refl _) hperm hwhole with
    ⟨canonical, hcanonical, hreordered⟩
  refine ⟨canonical, ?_, hflat.trans hreordered⟩
  rw [termOf?, hterms]
  exact hcanonical

/-!
## Every term can be rearranged into the one its rule spells

An operand brings its own operands into a node of its junction and comes as a single part
into any other.
-/

theorem brings_operand (connective : Connective) {operand : Operand} {term : Term}
    (h : termOf? operand.asRule = some term) :
    Brings connective
      ⟨connective, operand.recipientsIn connective, operand.partsIn connective⟩ term := by
  cases operand with
  | recipient lone =>
      cases h
      exact brings_recipient connective lone
  | rule incoming depth =>
      cases habsorbs : connective.absorbs incoming.connective with
      | true =>
          simp only [Operand.recipientsIn, Operand.partsIn, habsorbs, if_true]
          exact brings_spliced habsorbs h
      | false =>
          simp only [Operand.recipientsIn, Operand.partsIn, habsorbs, Bool.false_eq_true, if_false]
          exact brings_part connective h

theorem rearranged_termOf?_joined {connective : Connective} {operands : List Operand}
    {terms : List Term}
    (hoperands : List.Forall₂ (fun operand term => termOf? operand.asRule = some term)
      operands terms)
    {term : Term} (h : Term.ofOperands? connective terms = some term) :
    exists canonical,
      termOf? (joined connective operands).1 = some canonical ∧
        Term.Rearranged term canonical := by
  have hnodes : List.Forall₂ (Brings connective)
      (operands.map fun operand =>
        ⟨connective, operand.recipientsIn connective, operand.partsIn connective⟩) terms := by
    rw [List.forall₂_map_left_iff]
    exact hoperands.imp fun operand term hterm => brings_operand connective hterm
  have hgathered := rearranged_termOf?_gathered hnodes h
  rw [List.flatMap_map, List.flatMap_map] at hgathered
  rw [joined_rule]
  exact hgathered

theorem rearranged_termOf?_rule {term : Term} (hterm : term.IsUnlabelled) :
    exists canonical, termOf? term.rule = some canonical ∧ Term.Rearranged term canonical := by
  induction term with
  | recipient lone =>
      refine ⟨.recipient lone.unlabelled, rfl, ?_⟩
      rw [Term.isUnlabelled_recipient.mp hterm]
      exact Term.Rearranged.refl _
  | negation inner ih =>
      rcases ih (Term.isUnlabelled_negation.mp hterm) with ⟨innerCanonical, hinner, hrearranged⟩
      have hjoined : Term.ofOperands? .not [innerCanonical] = some (.negation innerCanonical) := rfl
      rcases rearranged_termOf?_joined (List.Forall₂.cons hinner List.Forall₂.nil) hjoined with
        ⟨canonical, hcanonical, hlater⟩
      exact ⟨canonical, hcanonical, (Term.Rearranged.negation hrearranged).trans hlater⟩
  | joined junction left right ihLeft ihRight =>
      rcases Term.isUnlabelled_joined.mp hterm with ⟨hleftTerm, hrightTerm⟩
      rcases ihLeft hleftTerm with ⟨leftCanonical, hleft, hleftRearranged⟩
      rcases ihRight hrightTerm with ⟨rightCanonical, hright, hrightRearranged⟩
      have hjoined := Term.ofOperands?_junction junction leftCanonical [rightCanonical]
      rcases rearranged_termOf?_joined
          (List.Forall₂.cons hleft (List.Forall₂.cons hright List.Forall₂.nil)) hjoined with
        ⟨canonical, hcanonical, hlater⟩
      exact ⟨canonical, hcanonical,
        (Term.Rearranged.joined junction hleftRearranged hrightRearranged).trans hlater⟩

/-!
## Terms of equivalent rules

Equivalent nodes hold the same recipients and equivalent parts, both up to order.
So their terms have operands that can be paired off after reordering.
-/

theorem unlabelled_perm_of_identity_perm {left right : List Recipient}
    (h : (left.map Recipient.identity).Perm (right.map Recipient.identity)) :
    (left.map Recipient.unlabelled).Perm (right.map Recipient.unlabelled) := by
  have hright : List.Forall₂ (fun identity lone => identity = Recipient.identity lone)
      (right.map Recipient.identity) right := by
    rw [List.forall₂_map_left_iff, List.forall₂_same]
    intro lone _
    rfl
  rcases List.perm_comp_forall₂ h hright with ⟨reordered, hreordered, hperm⟩
  have hidentity : left.map Recipient.identity = reordered.map Recipient.identity := by
    rw [<- List.forall₂_eq_eq_eq, List.forall₂_map_right_iff]
    exact hreordered
  rw [map_identity_eq_iff.mp hidentity]
  exact hperm.map Recipient.unlabelled

mutual

theorem rearranged_of_equivalent :
    (a : Rule) -> forall b s t, Equivalent a b ->
      termOf? a = some s -> termOf? b = some t -> Term.Rearranged s t
  | ⟨connective, recipients, parts⟩ => by
      intro b s t h hs ht
      cases h with
      | node others hconnective hrecipients hreordered hpaired =>
          rcases termOf?_eq_some hs with ⟨terms, hterms, hjoined⟩
          rcases termOf?_eq_some ht with ⟨otherTerms, hotherTerms, hotherJoined⟩
          rcases List.perm_comp_forall₂ hreordered (termsOf?_eq_some_iff.mp hotherTerms) with
            ⟨reorderedTerms, hreorderedTerms, hperm⟩
          have hparts := rearrangedAll_of_equivalent parts _ _ _ hpaired hterms
            (termsOf?_eq_some_iff.mpr hreorderedTerms)
          have hrecipientTerms :=
            (unlabelled_perm_of_identity_perm hrecipients).map Term.recipient
          rw [List.map_map, List.map_map] at hrecipientTerms
          rw [<- hconnective] at hotherJoined
          exact Term.rearranged_ofOperands?
            (List.rel_append (List.forall₂_refl _) hparts)
            (hrecipientTerms.append hperm) hjoined hotherJoined

theorem rearrangedAll_of_equivalent :
    (as : List Rule) -> forall bs ss ts, PairwiseEquivalent as bs ->
      termsOf? as = some ss -> termsOf? bs = some ts -> List.Forall₂ Term.Rearranged ss ts
  | [] => by
      intro bs ss ts h hs ht
      cases h
      cases hs
      cases ht
      exact List.Forall₂.nil
  | a :: as => by
      intro bs ss ts h hs ht
      cases h with
      | cons hfirst hlater =>
          rcases termsOf?_cons_eq_some hs with ⟨first, later, hfirstTerm, hlaterTerms, rfl⟩
          rcases termsOf?_cons_eq_some ht with ⟨other, others, hother, hothers, rfl⟩
          exact List.Forall₂.cons (rearranged_of_equivalent a _ _ _ hfirst hfirstTerm hother)
            (rearrangedAll_of_equivalent as _ _ _ hlater hlaterTerms hothers)

end

end Expression
end AccessRules
