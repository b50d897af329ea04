import AccessRules.Proofs.Expression.Shape
import AccessRules.Proofs.Expression.Supply

/-!
# Putting expressions together

A keyword behind two expressions joins what they are read as, and the keyword of
negation behind one negates it. The rule of the whole is the node to which the two
readings have been added in turn. How three expressions are grouped under one keyword
makes no difference, neither to the rule nor to the depth that the limit is held against.
-/

namespace AccessRules
namespace Expression

open Rule

/-!
## Texts of several expressions
-/

/-- Two expressions with a keyword behind them. -/
def joinedText (junction : Junction) (first second : String) : String :=
  first ++ " " ++ second ++ " " ++ junction.connective.keyword

def negatedText (text : String) : String :=
  text ++ " " ++ Connective.not.keyword

/-- The number of keywords in a text. -/
def keywordCount (text : String) : Nat :=
  (Text.words text).countP fun word => (Connective.ofKeyword? word).isSome

/-- Add to a node what a text is read as. A text of a single recipient token brings the
recipient itself, and any other text its rule. -/
def addReading (node : Rule) (text : String) (reading : Rule) : Rule :=
  match tokensOf (Text.words text) with
  | .ok [.recipient lone] => node.addRecipient lone
  | _ => node.combine reading

namespace Term

/-!
## The terms of such texts
-/

theorem words_keyword (connective : Connective) :
    Text.words connective.keyword = [connective.keyword] :=
  Text.words_of_isWord (Token.isWord_word (.connective connective))

theorem spelledBy_joinedText (junction : Junction) {a b : Term} {first second : String}
    (ha : a.SpelledBy first) (hb : b.SpelledBy second) :
    (joined junction a b).SpelledBy (joinedText junction first second) := by
  rcases spelledBy_iff.mp ha with ⟨hfirst, haUnlabelled⟩
  rcases spelledBy_iff.mp hb with ⟨hsecond, hbUnlabelled⟩
  apply spelledBy_iff.mpr
  constructor
  · rw [joinedText, Text.words_append_space, Text.words_append_space, words_keyword, hfirst,
      hsecond, tokens, List.map_append, List.map_append]
    rfl
  · exact isUnlabelled_joined.mpr ⟨haUnlabelled, hbUnlabelled⟩

theorem spelledBy_negatedText {a : Term} {text : String} (ha : a.SpelledBy text) :
    (negation a).SpelledBy (negatedText text) := by
  rcases spelledBy_iff.mp ha with ⟨hwords, hunlabelled⟩
  apply spelledBy_iff.mpr
  constructor
  · rw [negatedText, Text.words_append_space, words_keyword, hwords, tokens, List.map_append]
    rfl
  · exact isUnlabelled_negation.mpr hunlabelled

/-!
## Depth by keywords

Every keyword adds at most one level, so a limit that allows for all keywords is no
obstacle.
-/

theorem isSome_ofKeyword?_word (token : Token) :
    (Connective.ofKeyword? token.word).isSome = isConnectiveToken token := by
  cases token with
  | connective keyword =>
      simp [Token.word, isConnectiveToken]
  | recipient lone =>
      simp [Token.word, isConnectiveToken]

theorem keywordCount_of_spelledBy {term : Term} {text : String} (h : term.SpelledBy text) :
    keywordCount text = term.tokens.countP isConnectiveToken := by
  rw [keywordCount, (spelledBy_iff.mp h).1, List.countP_map]
  congr 1
  funext token
  exact isSome_ofKeyword?_word token

theorem depth_operand_le (term : Term) :
    term.operand.depth ≤ term.tokens.countP isConnectiveToken := by
  induction term with
  | recipient lone =>
      exact Nat.zero_le _
  | negation inner ih =>
      have hjoin := depth_join_le .not [inner.operand]
      rw [totalDepth_cons] at hjoin
      rw [tokens, List.countP_append]
      exact Nat.le_trans hjoin (Nat.succ_le_succ ih)
  | joined junction left right ihLeft ihRight =>
      have hjoin := depth_join_le junction.connective [left.operand, right.operand]
      rw [totalDepth_cons, totalDepth_cons] at hjoin
      rw [tokens, List.countP_append, List.countP_append]
      exact Nat.le_trans hjoin (Nat.succ_le_succ (Nat.add_le_add ihLeft ihRight))

theorem parse_of_keywordCount_le {term : Term} {text : String} (h : term.SpelledBy text)
    {limit : Nat} (hlimit : keywordCount text ≤ limit) : parse limit text = .ok term.rule := by
  rw [keywordCount_of_spelledBy h] at hlimit
  rw [parse_of_spelledBy h, if_pos (Nat.le_trans term.depth_operand_le hlimit)]

/-!
## The rules of such texts
-/

theorem joinTo_operand (node : Rule) (depth : Nat) {term : Term} {text : String}
    (h : term.SpelledBy text) :
    (term.operand.joinTo (node, depth)).1 = addReading node text term.rule := by
  rw [addReading, h]
  split
  · rename_i lone htokens
    have hterm : term = recipient lone := tokens_injective (Except.ok.inj htokens)
    rw [hterm]
    rfl
  · rename_i hother
    cases term with
    | recipient lone =>
        exact absurd rfl (hother lone)
    | negation inner =>
        rfl
    | joined junction left right =>
        rfl

theorem rule_joined_eq_addReading (junction : Junction) {a b : Term} {first second : String}
    (ha : a.SpelledBy first) (hb : b.SpelledBy second) :
    (joined junction a b).rule =
      addReading (addReading (bare junction.connective) first a.rule) second b.rule := by
  rw [<- joinTo_operand (bare junction.connective) 1 ha, <- joinTo_operand _ _ hb]
  rfl

theorem rule_negation_eq_addReading {a : Term} {text : String} (ha : a.SpelledBy text) :
    (negation a).rule = addReading (bare .not) text a.rule := by
  rw [<- joinTo_operand (bare .not) 1 ha]
  rfl

end Term

/-!
## Readings of such texts
-/

theorem parse_regrouped (junction : Junction) {a b c : Term} {first second third : String}
    (ha : a.SpelledBy first) (hb : b.SpelledBy second) (hc : c.SpelledBy third) (limit : Nat) :
    (exists rule,
        parse limit (joinedText junction (joinedText junction first second) third) = .ok rule ∧
          parse limit (joinedText junction first (joinedText junction second third)) = .ok rule) ∨
      (parse limit (joinedText junction (joinedText junction first second) third) =
          .error (.tooDeep limit) ∧
        parse limit (joinedText junction first (joinedText junction second third)) =
          .error (.tooDeep limit)) := by
  have hleft := Term.spelledBy_joinedText junction (Term.spelledBy_joinedText junction ha hb) hc
  have hright := Term.spelledBy_joinedText junction ha (Term.spelledBy_joinedText junction hb hc)
  rw [parse_of_spelledBy hleft, parse_of_spelledBy hright, Term.rule, Term.rule,
    Term.operand_regroup]
  split
  · exact Or.inl ⟨_, rfl, rfl⟩
  · exact Or.inr ⟨rfl, rfl⟩

/-- Under a limit that allows for all keywords, a keyword behind two accepted expressions
is read as the node to which first the one and then the other has been added, and the
keyword of negation behind one as the negation to which it has been added. Under any limit,
both groupings of three accepted expressions are read as one rule or are both too deep. -/
theorem parse_joinedText_and_regrouped {firstLimit secondLimit : Nat} {first second : String}
    {firstRule secondRule : Rule} (hfirst : parse firstLimit first = .ok firstRule)
    (hsecond : parse secondLimit second = .ok secondRule) (junction : Junction) :
    (forall limit,
      keywordCount (joinedText junction first second) ≤ limit ->
        parse limit (joinedText junction first second) =
          .ok (addReading (addReading (bare junction.connective) first firstRule)
            second secondRule)) ∧
      (forall limit,
        keywordCount (negatedText first) ≤ limit ->
          parse limit (negatedText first) =
            .ok (addReading (bare .not) first firstRule)) ∧
        forall thirdLimit third thirdRule,
          parse thirdLimit third = .ok thirdRule ->
            forall limit,
              (exists rule,
                parse limit (joinedText junction (joinedText junction first second) third) =
                    .ok rule ∧
                  parse limit (joinedText junction first (joinedText junction second third)) =
                    .ok rule) ∨
                (parse limit (joinedText junction (joinedText junction first second) third) =
                    .error (.tooDeep limit) ∧
                  parse limit (joinedText junction first (joinedText junction second third)) =
                    .error (.tooDeep limit)) := by
  rcases parse_eq_ok_iff.mp hfirst with ⟨a, ha, -, rfl⟩
  rcases parse_eq_ok_iff.mp hsecond with ⟨b, hb, -, rfl⟩
  refine ⟨?_, ?_, ?_⟩
  · intro limit hlimit
    rw [Term.parse_of_keywordCount_le (Term.spelledBy_joinedText junction ha hb) hlimit,
      Term.rule_joined_eq_addReading junction ha hb]
  · intro limit hlimit
    rw [Term.parse_of_keywordCount_le (Term.spelledBy_negatedText ha) hlimit,
      Term.rule_negation_eq_addReading ha]
  · intro thirdLimit third thirdRule hthird limit
    rcases parse_eq_ok_iff.mp hthird with ⟨c, hc, -, -⟩
    exact parse_regrouped junction ha hb hc limit

theorem parse_joinedText_and_regrouped_spliced :
    exists firstRule secondRule thirdRule,
      parse 1 "U:a U:b OR" = .ok firstRule ∧ parse 0 "U:c" = .ok secondRule ∧
        parse 1 "U:d NOT" = .ok thirdRule ∧
          keywordCount "U:a U:b OR U:c OR" ≤ 2 ∧
            parse 2 "U:a U:b OR U:c OR" =
                .ok (addReading (addReading (bare .or) "U:a U:b OR" firstRule) "U:c" secondRule) ∧
              keywordCount "U:a U:b OR NOT" ≤ 2 ∧
                parse 2 "U:a U:b OR NOT" =
                    .ok (addReading (bare .not) "U:a U:b OR" firstRule) ∧
                  ((exists rule,
                      parse 1 "U:a U:b OR U:c OR U:d NOT OR" = .ok rule ∧
                        parse 1 "U:a U:b OR U:c U:d NOT OR OR" = .ok rule) ∨
                    (parse 1 "U:a U:b OR U:c OR U:d NOT OR" = .error (.tooDeep 1) ∧
                      parse 1 "U:a U:b OR U:c U:d NOT OR OR" = .error (.tooDeep 1))) := by
  have hfirst : parse 1 "U:a U:b OR" =
      .ok ⟨.or, [⟨.user, "a", "U:a", rfl⟩, ⟨.user, "b", "U:b", rfl⟩], []⟩ := rfl
  have hsecond : parse 0 "U:c" = .ok ⟨.or, [⟨.user, "c", "U:c", rfl⟩], []⟩ := rfl
  have hthird : parse 1 "U:d NOT" = .ok ⟨.not, [⟨.user, "d", "U:d", rfl⟩], []⟩ := rfl
  have hjoined : keywordCount "U:a U:b OR U:c OR" ≤ 2 := by decide
  have hnegated : keywordCount "U:a U:b OR NOT" ≤ 2 := by decide
  rcases parse_joinedText_and_regrouped hfirst hsecond .or with ⟨hread, hnot, hgrouped⟩
  exact ⟨_, _, _, hfirst, hsecond, hthird, hjoined, hread 2 hjoined, hnegated, hnot 2 hnegated,
    hgrouped 1 _ _ hthird 1⟩

end Expression
end AccessRules
