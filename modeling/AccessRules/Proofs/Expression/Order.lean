import AccessRules.Proofs.Expression.Shape
import AccessRules.Proofs.Rule.Conservation
import AccessRules.Proofs.Rule.Retraction

/-!
# Readings keep the order of the text

Joining puts what later operands bring behind what earlier ones have brought. So whatever
relation holds between the recipients of a text from left to right holds in every node of the
reading: between its recipients, and between all that stands below one part and all that stands
below a later one. No recipient is lost or doubled on the way.
-/

namespace AccessRules

namespace Rule

/-!
## Rules in order
-/

section Order

variable (before : Recipient -> Recipient -> Prop)

/-- Every recipient of the first rule stands before every recipient of the second. -/
def AllBefore (first second : Rule) : Prop :=
  forall a, a ∈ first.allRecipients -> forall b, b ∈ second.allRecipients -> before a b

/-- In every node the recipients are in order, and so are the parts. -/
def KeepsOrder (rule : Rule) : Prop :=
  forall node, NodeOf node rule ->
    node.recipients.Pairwise before ∧ node.parts.Pairwise (AllBefore before)

end Order

section Order

variable {before : Recipient -> Recipient -> Prop}

theorem keepsOrder_iff {rule : Rule} :
    KeepsOrder before rule ↔
      rule.recipients.Pairwise before ∧ rule.parts.Pairwise (AllBefore before) ∧
        forall part, part ∈ rule.parts -> KeepsOrder before part := by
  constructor
  · intro h
    rcases h rule .root with ⟨hrecipients, hparts⟩
    refine ⟨hrecipients, hparts, ?_⟩
    intro part hpart node hnode
    exact h node (.inside hpart hnode)
  · rintro ⟨hrecipients, hparts, hinside⟩ node hnode
    cases hnode with
    | root =>
        exact ⟨hrecipients, hparts⟩
    | inside hpart hfurther =>
        exact hinside _ hpart node hfurther

theorem keepsOrder_brought (connective : Connective) {incoming : Rule}
    (h : KeepsOrder before incoming) : KeepsOrder before (brought connective incoming) := by
  have hshape := keepsOrder_iff.mp h
  cases habsorbs : connective.absorbs incoming.connective with
  | true =>
      rw [brought_of_absorbs habsorbs]
      exact keepsOrder_iff.mpr hshape
  | false =>
      rw [brought_of_not_absorbs habsorbs]
      refine keepsOrder_iff.mpr ⟨List.Pairwise.nil, List.pairwise_singleton _ _, ?_⟩
      intro part hpart
      rw [List.mem_singleton.mp hpart]
      exact h

end Order

end Rule

namespace Expression

open Rule

/-!
## Operands of a joined node
-/

namespace Operand

/-- The node that holds just what an operand brings into a node of the connective. -/
def broughtInto (connective : Connective) (operand : Operand) : Rule :=
  ⟨connective, operand.recipientsIn connective, operand.partsIn connective⟩

theorem broughtInto_rule (connective : Connective) (incoming : Rule) (depth : Nat) :
    (rule incoming depth).broughtInto connective = brought connective incoming := by
  cases habsorbs : connective.absorbs incoming.connective with
  | true =>
      simp only [broughtInto, recipientsIn, partsIn, brought_of_absorbs habsorbs, habsorbs, if_true]
  | false =>
      simp only [broughtInto, recipientsIn, partsIn, brought_of_not_absorbs habsorbs, habsorbs,
        Bool.false_eq_true, if_false]

theorem allRecipients_broughtInto (connective : Connective) (operand : Operand) :
    (operand.broughtInto connective).allRecipients = operand.asRule.allRecipients := by
  cases operand with
  | recipient lone =>
      rw [allRecipients_eq, allRecipients_eq (asRule _)]
      rfl
  | rule incoming depth =>
      rw [broughtInto_rule, allRecipients_brought]
      rfl

theorem keepsOrder_broughtInto {before : Recipient -> Recipient -> Prop}
    (connective : Connective) {operand : Operand} (h : KeepsOrder before operand.asRule) :
    KeepsOrder before (operand.broughtInto connective) := by
  cases operand with
  | recipient lone =>
      have hshape := keepsOrder_iff.mp h
      exact keepsOrder_iff.mpr hshape
  | rule incoming depth =>
      rw [broughtInto_rule]
      exact keepsOrder_brought connective h

end Operand

theorem joined_rule_eq_flatMap (connective : Connective) (operands : List Operand) :
    (joined connective operands).1 =
      ⟨connective,
        (operands.map (Operand.broughtInto connective)).flatMap Rule.recipients,
        (operands.map (Operand.broughtInto connective)).flatMap Rule.parts⟩ := by
  rw [joined_rule, List.flatMap_map, List.flatMap_map]
  rfl

theorem allRecipients_joined_perm (connective : Connective) (operands : List Operand) :
    (joined connective operands).1.allRecipients.Perm
      (operands.flatMap fun operand => operand.asRule.allRecipients) := by
  have hbrought : (operands.flatMap fun operand => operand.asRule.allRecipients) =
      (operands.map (Operand.broughtInto connective)).flatMap fun brought =>
        brought.recipients ++ brought.parts.flatMap allRecipients := by
    rw [List.flatMap_map]
    apply List.flatMap_congr
    intro operand _
    rw [<- Operand.allRecipients_broughtInto connective, allRecipients_eq]
  rw [joined_rule_eq_flatMap, allRecipients_eq, hbrought, List.flatMap_assoc]
  exact List.flatMap_append_perm _ _ _

/-- A node is in order when its operands are, each by itself and all of them in a row. -/
theorem keepsOrder_joined {before : Recipient -> Recipient -> Prop} (connective : Connective)
    {operands : List Operand}
    (hown : forall operand, operand ∈ operands -> KeepsOrder before operand.asRule)
    (hrow : operands.Pairwise fun first second =>
      AllBefore before first.asRule second.asRule) :
    KeepsOrder before (joined connective operands).1 := by
  have hbroughtOwn : forall brought,
      brought ∈ operands.map (Operand.broughtInto connective) ->
        brought.recipients.Pairwise before ∧ brought.parts.Pairwise (AllBefore before) ∧
          forall part, part ∈ brought.parts -> KeepsOrder before part := by
    intro brought hbrought
    rcases List.mem_map.mp hbrought with ⟨operand, hoperand, rfl⟩
    exact keepsOrder_iff.mp (Operand.keepsOrder_broughtInto connective (hown operand hoperand))
  have hbroughtRow :
      (operands.map (Operand.broughtInto connective)).Pairwise (AllBefore before) := by
    refine List.pairwise_map.mpr (hrow.imp ?_)
    intro first second hbefore
    rw [AllBefore, Operand.allRecipients_broughtInto, Operand.allRecipients_broughtInto]
    exact hbefore
  rw [joined_rule_eq_flatMap]
  refine keepsOrder_iff.mpr ⟨List.pairwise_flatMap.mpr ⟨?_, hbroughtRow.imp ?_⟩,
    List.pairwise_flatMap.mpr ⟨?_, hbroughtRow.imp ?_⟩, ?_⟩
  · intro brought hbrought
    exact (hbroughtOwn brought hbrought).1
  · intro first second hbefore a ha b hb
    rw [AllBefore, allRecipients_eq, allRecipients_eq second] at hbefore
    exact hbefore a (List.mem_append_left _ ha) b (List.mem_append_left _ hb)
  · intro brought hbrought
    exact (hbroughtOwn brought hbrought).2.1
  · intro first second hbefore part hpart later hlater a ha b hb
    rw [AllBefore, allRecipients_eq, allRecipients_eq second] at hbefore
    exact hbefore a (List.mem_append_right _ (List.mem_flatMap.mpr ⟨part, hpart, ha⟩)) b
      (List.mem_append_right _ (List.mem_flatMap.mpr ⟨later, hlater, hb⟩))
  · intro part hpart
    rcases List.mem_flatMap.mp hpart with ⟨brought, hbrought, hheld⟩
    exact (hbroughtOwn brought hbrought).2.2 part hheld

/-!
## Recipients of a text
-/

/-- The words of a text that are no keywords, in the order of the text. -/
def recipientWords (text : String) : List String :=
  (Text.words text).filter fun word => (Connective.ofKeyword? word).isNone

/-- Wherever the tokens of two recipients stand in a text, the first stands further left. -/
def Precedes (text : String) (first second : Recipient) : Prop :=
  forall position later : Nat,
    (Text.words text)[position]? = some first.token ->
      (Text.words text)[later]? = some second.token -> position < later

/-- A word that occurs once among the chosen ones has one position. -/
theorem position_eq_of_nodup_filter {words : List String} {chosen : String -> Bool}
    (hnodup : (words.filter chosen).Nodup) {word : String} (hchosen : chosen word = true)
    {position other : Nat} (h : words[position]? = some word)
    (hother : words[other]? = some word) : position = other := by
  have happart := List.pairwise_iff_getElem.mp (List.pairwise_filter.mp hnodup)
  rcases List.getElem?_eq_some_iff.mp h with ⟨hlt, hword⟩
  rcases List.getElem?_eq_some_iff.mp hother with ⟨hltOther, hwordOther⟩
  rcases Nat.lt_trichotomy position other with hbefore | hequal | hbehind
  · exact absurd (hword.trans hwordOther.symm)
      (happart position other hlt hltOther hbefore (hword ▸ hchosen) (hwordOther ▸ hchosen))
  · exact hequal
  · exact absurd (hwordOther.trans hword.symm)
      (happart other position hltOther hlt hbehind (hwordOther ▸ hchosen) (hword ▸ hchosen))

namespace Term

/-- The recipients of a term, in the order of its tokens. -/
def recipients (term : Term) : List Recipient :=
  term.tokens.filterMap Token.recipient?

theorem recipients_negation (inner : Term) : (negation inner).recipients = inner.recipients := by
  rw [recipients, tokens, List.filterMap_append]
  exact List.append_nil _

theorem recipients_joined (junction : Junction) (left right : Term) :
    (joined junction left right).recipients = left.recipients ++ right.recipients := by
  rw [recipients, tokens, List.filterMap_append, List.filterMap_append]
  exact List.append_nil _

theorem allRecipients_rule_perm (term : Term) :
    term.rule.allRecipients.Perm term.recipients := by
  induction term with
  | recipient lone =>
      rw [rule, operand, Operand.asRule, allRecipients_eq]
      exact List.Perm.refl _
  | negation inner ih =>
      have hnode := allRecipients_joined_perm .not [inner.operand]
      rw [List.flatMap_singleton] at hnode
      rw [recipients_negation]
      exact hnode.trans ih
  | joined junction left right ihLeft ihRight =>
      have hnode := allRecipients_joined_perm junction.connective [left.operand, right.operand]
      rw [List.flatMap_cons, List.flatMap_singleton] at hnode
      rw [recipients_joined]
      exact hnode.trans (ihLeft.append ihRight)

/-- Whatever holds between the recipients of a term from left to right holds in its rule. -/
theorem keepsOrder_rule {before : Recipient -> Recipient -> Prop} (term : Term)
    (h : term.recipients.Pairwise before) : KeepsOrder before term.rule := by
  induction term with
  | recipient lone =>
      exact keepsOrder_iff.mpr ⟨List.pairwise_singleton _ _, List.Pairwise.nil,
        List.forall_mem_nil _⟩
  | negation inner ih =>
      rw [recipients_negation] at h
      apply keepsOrder_joined
      · intro operand hoperand
        rw [List.mem_singleton.mp hoperand]
        exact ih h
      · exact List.pairwise_singleton _ _
  | joined junction left right ihLeft ihRight =>
      rw [recipients_joined] at h
      rcases List.pairwise_append.mp h with ⟨hleft, hright, hacross⟩
      apply keepsOrder_joined
      · intro operand hoperand
        rcases List.mem_pair.mp hoperand with rfl | rfl
        · exact ihLeft hleft
        · exact ihRight hright
      · apply List.pairwise_pair.mpr
        intro a ha b hb
        exact hacross a (left.allRecipients_rule_perm.mem_iff.mp ha) b
          (right.allRecipients_rule_perm.mem_iff.mp hb)

theorem recipientWords_of_spelledBy {term : Term} {text : String} (h : term.SpelledBy text) :
    recipientWords text = term.recipients.map Recipient.token := by
  rw [recipientWords, (spelledBy_iff.mp h).1, Token.filter_map_word]
  rfl

theorem pairwise_precedes {term : Term} {text : String} (h : term.SpelledBy text)
    (hnodup : (recipientWords text).Nodup) : term.recipients.Pairwise (Precedes text) := by
  apply List.pairwise_filterMap.mpr
  apply List.pairwise_iff_getElem.mpr
  intro first second hfirst hsecond hlt a ha b hb position later hposition hlater
  have hwords := (spelledBy_iff.mp h).1
  have hchosen : forall lone : Recipient,
      (Connective.ofKeyword? lone.token).isNone = true := by
    intro lone
    rw [lone.ofKeyword?_token]
    rfl
  have hstands : forall (place : Nat) (hplace : place < term.tokens.length) (lone : Recipient),
      lone ∈ term.tokens[place].recipient? ->
        (Text.words text)[place]? = some lone.token := by
    intro place hplace lone hlone
    rw [hwords, List.getElem?_map, List.getElem?_eq_getElem hplace, Option.map_some]
    cases htoken : term.tokens[place] with
    | connective keyword =>
        rw [htoken] at hlone
        cases hlone
    | recipient other =>
        rw [htoken] at hlone
        cases hlone
        rfl
  have hpositionEq := position_eq_of_nodup_filter hnodup (hchosen a) hposition
    (hstands first hfirst a ha)
  have hlaterEq := position_eq_of_nodup_filter hnodup (hchosen b) hlater
    (hstands second hsecond b hb)
  rw [hpositionEq, hlaterEq]
  exact hlt

end Term

/-- A reading has the recipients of the text, each as often as the text has it and labelled by
its token. Where all of them differ, the recipients of every node stand in the order of the text,
and so do its parts: whatever is below a part stands before whatever is below a later one. -/
theorem reading_keeps_order {limit : Nat} {text : String} {rule : Rule}
    (h : parse limit text = .ok rule) :
    (rule.allRecipients.map Recipient.token).Perm (recipientWords text) ∧
      (forall lone, lone ∈ rule.allRecipients -> lone.label = lone.token) ∧
        ((recipientWords text).Nodup ->
          forall node, NodeOf node rule ->
            node.recipients.Pairwise (Precedes text) ∧
              node.parts.Pairwise fun part later =>
                forall a, a ∈ part.allRecipients ->
                  forall b, b ∈ later.allRecipients -> Precedes text a b) := by
  rcases parse_eq_ok_iff.mp h with ⟨term, hterm, -, rfl⟩
  refine ⟨?_, ?_, ?_⟩
  · rw [Term.recipientWords_of_spelledBy hterm]
    exact term.allRecipients_rule_perm.map Recipient.token
  · intro lone hlone
    have hunlabelled := Term.unlabelled_rule (Term.isUnlabelled_of_spelledBy hterm)
    have hlabel := unlabelled_eq_self_iff term.rule |>.mp hunlabelled lone hlone
    simpa [Recipient.isLabelled] using hlabel
  · intro hnodup
    exact term.keepsOrder_rule (Term.pairwise_precedes hterm hnodup)

theorem reading_keeps_order_spliced :
    exists rule,
      parse 2 "U:d U:a G:x AND OR R:y U:b AND U:c OR OR" = .ok rule ∧
        rule = ⟨.or, [⟨.user, "d", "U:d", rfl⟩, ⟨.user, "c", "U:c", rfl⟩],
          [⟨.and, [⟨.user, "a", "U:a", rfl⟩, ⟨.group, "x", "G:x", rfl⟩], []⟩,
            ⟨.and, [⟨.role, "y", "R:y", rfl⟩, ⟨.user, "b", "U:b", rfl⟩], []⟩]⟩ ∧
          (recipientWords "U:d U:a G:x AND OR R:y U:b AND U:c OR OR").Nodup ∧
            forall node, NodeOf node rule ->
              node.recipients.Pairwise
                  (Precedes "U:d U:a G:x AND OR R:y U:b AND U:c OR OR") ∧
                node.parts.Pairwise fun part later =>
                  forall a, a ∈ part.allRecipients ->
                    forall b, b ∈ later.allRecipients ->
                      Precedes "U:d U:a G:x AND OR R:y U:b AND U:c OR OR" a b := by
  have h : parse 2 "U:d U:a G:x AND OR R:y U:b AND U:c OR OR" =
      .ok ⟨.or, [⟨.user, "d", "U:d", rfl⟩, ⟨.user, "c", "U:c", rfl⟩],
        [⟨.and, [⟨.user, "a", "U:a", rfl⟩, ⟨.group, "x", "G:x", rfl⟩], []⟩,
          ⟨.and, [⟨.role, "y", "R:y", rfl⟩, ⟨.user, "b", "U:b", rfl⟩], []⟩]⟩ := rfl
  have hnodup : (recipientWords "U:d U:a G:x AND OR R:y U:b AND U:c OR OR").Nodup := by
    decide
  exact ⟨_, h, rfl, hnodup, (reading_keeps_order h).2.2 hnodup⟩

end Expression
end AccessRules
