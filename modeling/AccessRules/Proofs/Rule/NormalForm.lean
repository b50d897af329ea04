import AccessRules.Rule.NormalForm
import AccessRules.Proofs.Rule.Fold
import AccessRules.Proofs.Rule.Readable

/-!
# Normal forms are the normal rules

A rule whose parts may all stay is its own normal form, and the parts of every normal
form may stay. The readings of expressions are such rules.
-/

namespace AccessRules
namespace Rule

theorem normalForm_eq (rule : Rule) :
    rule.normalForm = collapse rule (rule.parts.map normalForm) :=
  foldUp_eq collapse rule

/-!
## Parts that stand for a recipient
-/

theorem loneRecipient?_eq_some {part : Rule} {recipient : Recipient}
    (h : part.loneRecipient? = some recipient) :
    part.connective ≠ .not ∧ part.recipients = [recipient] ∧ part.parts = [] := by
  unfold loneRecipient? at h
  split at h
  · rename_i lone hrecipients hparts
    split at h
    · cases h
    · rename_i hunary
      cases h
      refine ⟨?_, hrecipients, hparts⟩
      intro hnot
      rw [hnot] at hunary
      exact hunary rfl
  · cases h

theorem loneRecipient?_of_single {part : Rule} {recipient : Recipient}
    (hbinary : part.connective ≠ .not) (hrecipients : part.recipients = [recipient])
    (hparts : part.parts = []) : part.loneRecipient? = some recipient := by
  have hunary : part.connective.isUnary = false := by
    cases hconnective : part.connective with
    | and =>
        rfl
    | or =>
        rfl
    | not =>
        exact absurd hconnective hbinary
  rw [loneRecipient?, hrecipients, hparts, hunary]
  rfl

/-!
## What a rule brings into a node

A node puts what a rule brings behind what it holds already, whether the rule is spliced in or
held as a part.
-/

/-- The node that holds just what a rule brings into a node of the connective. -/
def brought (connective : Connective) (incoming : Rule) : Rule :=
  (bare connective).combine incoming

theorem combine_of_absorbs {base incoming : Rule}
    (h : base.connective.absorbs incoming.connective = true) :
    base.combine incoming =
      ⟨base.connective, base.recipients ++ incoming.recipients,
        base.parts ++ incoming.parts⟩ := by
  rw [combine, if_pos h]

theorem brought_of_absorbs {connective : Connective} {incoming : Rule}
    (h : connective.absorbs incoming.connective = true) :
    brought connective incoming = ⟨connective, incoming.recipients, incoming.parts⟩ :=
  combine_of_absorbs h

theorem brought_of_not_absorbs {connective : Connective} {incoming : Rule}
    (h : connective.absorbs incoming.connective = false) :
    brought connective incoming = ⟨connective, [], [incoming]⟩ := by
  simp [brought, combine, bare, addPart, h]

theorem combine_eq (base incoming : Rule) :
    base.combine incoming =
      ⟨base.connective, base.recipients ++ (brought base.connective incoming).recipients,
        base.parts ++ (brought base.connective incoming).parts⟩ := by
  cases habsorbs : base.connective.absorbs incoming.connective with
  | true =>
      rw [brought_of_absorbs habsorbs, combine_of_absorbs habsorbs]
  | false =>
      rw [brought_of_not_absorbs habsorbs, combine, habsorbs, List.append_nil]
      rfl

/-!
## What a part contributes

An empty part contributes nothing and a lone recipient itself. Any other part contributes what
it brings: it is spliced in where the connective allows it, and stays where it does not.
-/

theorem staysIn_iff {connective : Connective} {part : Rule} :
    staysIn connective part = true ↔
      part.isEmpty = false ∧ part.loneRecipient? = none ∧
        connective.absorbs part.connective = false := by
  simp [staysIn, and_assoc]

theorem contribution_of_loneRecipient? (connective : Connective) {part : Rule}
    {recipient : Recipient} (h : part.loneRecipient? = some recipient) :
    contribution connective part = single connective recipient := by
  have hempty : part.isEmpty = false := by
    rw [isEmpty, (loneRecipient?_eq_some h).2.1]
    rfl
  simp only [contribution, hempty, h, Bool.false_eq_true, if_false]

theorem contribution_eq_brought (connective : Connective) {part : Rule}
    (hempty : part.isEmpty = false) (hlone : part.loneRecipient? = none) :
    contribution connective part = brought connective part := by
  simp only [contribution, hempty, hlone, Bool.false_eq_true, if_false]
  rfl

theorem contribution_or_brought (connective : Connective) (part : Rule) :
    (part.isEmpty = true ∧ contribution connective part = bare connective) ∨
      (exists recipient,
        part.loneRecipient? = some recipient ∧
          contribution connective part = single connective recipient) ∨
        (part.isEmpty = false ∧ part.loneRecipient? = none ∧
          contribution connective part = brought connective part) := by
  cases hempty : part.isEmpty with
  | true =>
      exact Or.inl ⟨rfl, if_pos hempty⟩
  | false =>
      cases hlone : part.loneRecipient? with
      | some recipient =>
          exact Or.inr (Or.inl ⟨recipient, rfl, contribution_of_loneRecipient? connective hlone⟩)
      | none =>
          exact Or.inr (Or.inr ⟨rfl, rfl, contribution_eq_brought connective hempty hlone⟩)

theorem contribution_of_staysIn {connective : Connective} {part : Rule}
    (h : staysIn connective part = true) :
    contribution connective part = ⟨connective, [], [part]⟩ := by
  rcases staysIn_iff.mp h with ⟨hempty, hlone, habsorbs⟩
  rw [contribution_eq_brought connective hempty hlone, brought_of_not_absorbs habsorbs]

theorem contribution_cases (connective : Connective) (part : Rule) :
    (part.isEmpty = true ∧ contribution connective part = bare connective) ∨
      (exists recipient,
        part.loneRecipient? = some recipient ∧
          contribution connective part = single connective recipient) ∨
        (connective.absorbs part.connective = true ∧
          contribution connective part = ⟨connective, part.recipients, part.parts⟩) ∨
          (staysIn connective part = true ∧
            contribution connective part = ⟨connective, [], [part]⟩) := by
  refine (contribution_or_brought connective part).imp_right (Or.imp_right ?_)
  rintro ⟨hempty, hlone, hbrought⟩
  cases habsorbs : connective.absorbs part.connective with
  | true =>
      exact Or.inl ⟨rfl, hbrought.trans (brought_of_absorbs habsorbs)⟩
  | false =>
      exact Or.inr ⟨staysIn_iff.mpr ⟨hempty, hlone, habsorbs⟩,
        hbrought.trans (brought_of_not_absorbs habsorbs)⟩

@[simp] theorem recipients_collapse (node : Rule) (parts : List Rule) :
    (collapse node parts).recipients =
      node.recipients ++
        parts.flatMap fun part => (contribution node.connective part).recipients := by
  simp only [collapse, List.flatMap_map]

@[simp] theorem parts_collapse (node : Rule) (parts : List Rule) :
    (collapse node parts).parts =
      parts.flatMap fun part => (contribution node.connective part).parts := by
  simp only [collapse, List.flatMap_map]

/-!
## Parts taken in one by one

A node gathers the same operands when it takes its parts in one after the other.
-/

theorem takeIn_eq (node part : Rule) :
    node.takeIn part =
      ⟨node.connective, node.recipients ++ (contribution node.connective part).recipients,
        node.parts ++ (contribution node.connective part).parts⟩ := by
  rcases node with ⟨connective, recipients, parts⟩
  rw [takeIn, contribution]
  split
  · simp only [bare, List.append_nil]
  · cases part.loneRecipient? with
    | some recipient =>
        simp only [addRecipient, single, List.append_nil]
    | none =>
        exact combine_eq _ part

theorem foldl_takeIn_eq (node : Rule) (parts : List Rule) :
    parts.foldl takeIn node =
      ⟨node.connective,
        node.recipients ++
          parts.flatMap fun part => (contribution node.connective part).recipients,
        node.parts ++ parts.flatMap fun part => (contribution node.connective part).parts⟩ := by
  induction parts generalizing node with
  | nil =>
      cases node
      simp only [List.foldl_nil, List.flatMap_nil, List.append_nil]
  | cons part rest ih =>
      rw [List.foldl_cons, ih, takeIn_eq, List.flatMap_cons, List.flatMap_cons,
        List.append_assoc, List.append_assoc]

theorem collapse_eq_foldl (node : Rule) (parts : List Rule) :
    collapse node parts = parts.foldl takeIn ⟨node.connective, node.recipients, []⟩ := by
  rw [foldl_takeIn_eq, List.nil_append, <- recipients_collapse, <- parts_collapse]
  rfl

/-!
## Parts that stay
-/

theorem collapse_of_staysIn (node : Rule) {parts : List Rule}
    (h : forall part, part ∈ parts -> staysIn node.connective part = true) :
    collapse node parts = { node with parts } := by
  have hcontributions : parts.map (contribution node.connective) =
      parts.map fun part => ⟨node.connective, [], [part]⟩ := by
    apply List.map_congr_left
    intro part hpart
    exact contribution_of_staysIn (h part hpart)
  rw [collapse, hcontributions]
  simp [List.flatMap_map]

theorem areNormalIn_iff {connective : Connective} {parts : List Rule} :
    areNormalIn connective parts = true ↔
      forall part, part ∈ parts ->
        staysIn connective part = true ∧ part.isNormal = true := by
  induction parts with
  | nil =>
      simp [areNormalIn]
  | cons part rest ih =>
      simp [areNormalIn, ih]

theorem isNormal_iff {rule : Rule} :
    rule.isNormal = true ↔
      forall part, part ∈ rule.parts ->
        staysIn rule.connective part = true ∧ part.isNormal = true := by
  cases rule
  exact areNormalIn_iff

mutual

theorem normalForm_of_isNormal :
    (rule : Rule) -> rule.isNormal = true -> rule.normalForm = rule
  | ⟨connective, recipients, parts⟩ => by
      intro h
      rw [isNormal] at h
      have hstays := areNormalIn_iff.mp h
      rw [normalForm_eq, map_normalForm_of_areNormalIn connective parts h]
      exact collapse_of_staysIn _ fun part hpart => (hstays part hpart).1

theorem map_normalForm_of_areNormalIn (connective : Connective) :
    (parts : List Rule) -> areNormalIn connective parts = true ->
      parts.map normalForm = parts
  | [] => by
      intro _
      rfl
  | part :: rest => by
      intro h
      rw [areNormalIn, Bool.and_eq_true, Bool.and_eq_true] at h
      rw [List.map_cons, normalForm_of_isNormal part h.1.2,
        map_normalForm_of_areNormalIn connective rest h.2]

end

/-!
## Normal forms are normal

What a normal part contributes to a node may stay there: its own parts may stay wherever
they are spliced in, because that needs the same connective.
-/

theorem staysIn_of_mem_contribution {connective : Connective} {part inner : Rule}
    (h : part.isNormal = true) (hinner : inner ∈ (contribution connective part).parts) :
    staysIn connective inner = true ∧ inner.isNormal = true := by
  rcases contribution_cases connective part with
    ⟨-, hbrought⟩ | ⟨recipient, -, hbrought⟩ | ⟨habsorbs, hbrought⟩ | ⟨hstays, hbrought⟩
  · rw [hbrought] at hinner
    cases hinner
  · rw [hbrought] at hinner
    cases hinner
  · rw [hbrought] at hinner
    rw [(Connective.absorbs_iff.mp habsorbs).1]
    exact isNormal_iff.mp h inner hinner
  · rw [hbrought] at hinner
    rw [List.mem_singleton.mp hinner]
    exact ⟨hstays, h⟩

theorem isNormal_collapse (node : Rule) {parts : List Rule}
    (h : forall part, part ∈ parts -> part.isNormal = true) :
    (collapse node parts).isNormal = true := by
  apply isNormal_iff.mpr
  intro inner hinner
  rw [parts_collapse] at hinner
  rcases List.mem_flatMap.mp hinner with ⟨part, hpart, hbrought⟩
  exact staysIn_of_mem_contribution (h part hpart) hbrought

mutual

theorem isNormal_normalForm : (rule : Rule) -> rule.normalForm.isNormal = true
  | ⟨connective, recipients, parts⟩ => by
      rw [normalForm_eq]
      exact isNormal_collapse _ (isNormal_of_mem_map_normalForm parts)

theorem isNormal_of_mem_map_normalForm :
    (rules : List Rule) -> forall rule, rule ∈ rules.map normalForm -> rule.isNormal = true
  | [] => by
      intro rule hrule
      cases hrule
  | first :: rest => by
      rw [List.map_cons, List.forall_mem_cons]
      exact ⟨isNormal_normalForm first, isNormal_of_mem_map_normalForm rest⟩

end

/-!
## Readings are normal
-/

theorem loneRecipient?_of_isJoined {rule : Rule} (h : rule.isJoined = true) :
    rule.loneRecipient? = none := by
  unfold loneRecipient?
  split
  · rename_i recipient hrecipients hparts
    split
    · rfl
    · rename_i hunary
      have hbinary : rule.connective.isUnary = false := by simpa using hunary
      have hsupplied := (isJoined_iff.mp h).1
      rw [wellSupplied_iff_of_binary hbinary, operandCount, hrecipients, hparts] at hsupplied
      simp at hsupplied
  · rfl

theorem staysIn_of_isJoined {connective : Connective} {part : Rule}
    (hjoined : part.isJoined = true) (habsorbs : connective.absorbs part.connective = false) :
    staysIn connective part = true := by
  have hempty : part.isEmpty = false := by
    have hpos := operandCount_pos_of_isJoined hjoined
    cases hempty : part.isEmpty with
    | false =>
        rfl
    | true =>
        rw [isEmpty_eq_true_iff] at hempty
        simp [operandCount, hempty.1, hempty.2] at hpos
  simp [staysIn, hempty, loneRecipient?_of_isJoined hjoined, habsorbs]

mutual

theorem isNormal_of_isJoined : (rule : Rule) -> rule.isJoined = true -> rule.isNormal = true
  | ⟨connective, recipients, parts⟩ => by
      intro h
      rw [isJoined, Bool.and_eq_true] at h
      rw [isNormal]
      exact areNormalIn_of_areJoinedIn connective parts h.2

theorem areNormalIn_of_areJoinedIn (connective : Connective) :
    (parts : List Rule) -> areJoinedIn connective parts = true ->
      areNormalIn connective parts = true
  | [] => by
      intro _
      rfl
  | part :: rest => by
      intro h
      simp only [areJoinedIn, Bool.and_eq_true, Bool.not_eq_true'] at h
      rcases h with ⟨⟨habsorbs, hjoined⟩, hrest⟩
      rw [areNormalIn, staysIn_of_isJoined hjoined habsorbs, isNormal_of_isJoined part hjoined,
        areNormalIn_of_areJoinedIn connective rest hrest]
      rfl

end

theorem isNormal_of_isReadable {rule : Rule} (h : rule.isReadable = true) :
    rule.isNormal = true := by
  rw [isReadable, Bool.or_eq_true] at h
  rcases h with hlone | hjoined
  · rcases isLoneToken_iff.mp hlone with ⟨recipient, rfl⟩
    rfl
  · exact isNormal_of_isJoined rule hjoined

end Rule
end AccessRules
