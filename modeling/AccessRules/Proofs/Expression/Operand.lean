import AccessRules.Expression.Operand
import AccessRules.Proofs.Rule.Readable
import AccessRules.Proofs.Rule.Rows

/-!
# What joining operands gives

A node that joins some operands holds what each of them brings, in the order of
the text. From this follow its depth and its shape.
-/

namespace AccessRules
namespace Expression

namespace Operand

/-!
## What an operand brings into a node

A rule that is spliced brings its recipients and parts. Any other rule is itself
the part, and a recipient is just a recipient.
-/

def recipientsIn (connective : Connective) : Operand -> List Recipient
  | recipient lone => [lone]
  | rule incoming _ =>
      if connective.absorbs incoming.connective then incoming.recipients else []

def partsIn (connective : Connective) : Operand -> List Rule
  | recipient _ => []
  | rule incoming _ =>
      if connective.absorbs incoming.connective then incoming.parts else [incoming]

/-- The depth that an operand brings into a node. -/
def depthIn (connective : Connective) : Operand -> Nat
  | recipient _ => 0
  | rule incoming depth =>
      if connective.absorbs incoming.connective then depth else depth + 1

/-- The depth of an operand by itself. A recipient is no node yet. -/
def depth : Operand -> Nat
  | recipient _ => 0
  | rule _ depth => depth

/-- The rule that is left when the operand is the only one. -/
def asRule : Operand -> Rule
  | recipient lone => Rule.single .or lone
  | rule incoming _ => incoming

theorem joinTo_eq (node : Rule × Nat) (operand : Operand) :
    joinTo node operand =
      (⟨node.1.connective,
        node.1.recipients ++ operand.recipientsIn node.1.connective,
        node.1.parts ++ operand.partsIn node.1.connective⟩,
        max node.2 (operand.depthIn node.1.connective)) := by
  cases operand with
  | recipient lone =>
      simp [joinTo, Rule.addRecipient, recipientsIn, partsIn, depthIn]
  | rule incoming depth =>
      cases habsorbs : node.1.connective.absorbs incoming.connective <;>
        simp [joinTo, Rule.combine, Rule.addPart, recipientsIn, partsIn, depthIn, habsorbs]

theorem depth_le_depthIn (connective : Connective) (operand : Operand) :
    operand.depth ≤ operand.depthIn connective := by
  cases operand with
  | recipient lone =>
      simp [depth, depthIn]
  | rule incoming reached =>
      simp only [depth, depthIn]
      split <;> omega

theorem depthIn_le (connective : Connective) (operand : Operand) :
    operand.depthIn connective ≤ operand.depth + 1 := by
  cases operand with
  | recipient lone =>
      exact Nat.zero_le _
  | rule incoming reached =>
      simp only [depthIn, depth]
      split <;> omega

end Operand

/-!
## The joined node
-/

theorem foldl_joinTo (operands : List Operand) (node : Rule) (depth : Nat) :
    operands.foldl Operand.joinTo (node, depth) =
      (⟨node.connective,
        node.recipients ++ operands.flatMap (Operand.recipientsIn node.connective),
        node.parts ++ operands.flatMap (Operand.partsIn node.connective)⟩,
        (operands.map (Operand.depthIn node.connective)).foldl max depth) := by
  induction operands generalizing node depth with
  | nil =>
      cases node
      simp
  | cons operand rest ih =>
      rw [List.foldl_cons, Operand.joinTo_eq, ih]
      simp

@[simp] theorem joined_rule (connective : Connective) (operands : List Operand) :
    (joined connective operands).1 =
      ⟨connective, operands.flatMap (Operand.recipientsIn connective),
        operands.flatMap (Operand.partsIn connective)⟩ := by
  rw [joined, foldl_joinTo]
  simp [Rule.bare]

@[simp] theorem joined_depth (connective : Connective) (operands : List Operand) :
    (joined connective operands).2 =
      (operands.map (Operand.depthIn connective)).foldl max 1 := by
  rw [joined, foldl_joinTo]
  rfl

/-- Operands joined to one. -/
def join (connective : Connective) (operands : List Operand) : Operand :=
  .rule (joined connective operands).1 (joined connective operands).2

/-- Operands that are joined already are joined to further ones as if they stood among
them, at whatever place. -/
theorem joined_join {connective : Connective} (hbinary : connective ≠ .not)
    (front inner later : List Operand) :
    joined connective (front ++ join connective inner :: later) =
      joined connective (front ++ (inner ++ later)) := by
  have habsorbs : connective.absorbs connective = true :=
    Connective.absorbs_iff.mpr ⟨rfl, hbinary⟩
  have hdepth : (join connective inner).depthIn connective =
      max 1 ((inner.map (Operand.depthIn connective)).foldl max 0) := by
    rw [<- Rule.foldl_max_eq, <- joined_depth]
    simp [join, Operand.depthIn, habsorbs]
  apply Prod.ext
  · rw [joined_rule, joined_rule]
    simp [join, Operand.recipientsIn, Operand.partsIn, habsorbs]
  · have hfront : 1 ≤ (front.map (Operand.depthIn connective)).foldl max 1 := by
      rw [Rule.foldl_max_eq]
      exact Nat.le_max_left 1 _
    have hinner := Rule.foldl_max_eq (inner.map (Operand.depthIn connective))
      ((front.map (Operand.depthIn connective)).foldl max 1)
    rw [joined_depth, joined_depth]
    simp only [List.map_append, List.map_cons, List.foldl_append, List.foldl_cons, hdepth]
    rw [hinner, <- Nat.max_assoc, Nat.max_eq_left hfront]

/-!
## Operands that come from a reading

Every rule on the stack has the shape of a reading and carries its true depth.
Joining keeps both.
-/

namespace Operand

def WellFormed : Operand -> Prop
  | recipient _ => True
  | rule incoming depth => incoming.isJoined = true ∧ depth = incoming.height

theorem heightAll_partsIn {operand : Operand} (h : operand.WellFormed)
    (connective : Connective) :
    Rule.heightAll (operand.partsIn connective) + 1 = max 1 (operand.depthIn connective) := by
  cases operand with
  | recipient lone =>
      rfl
  | rule incoming depth =>
      rcases h with ⟨-, hdepth⟩
      have hheight := incoming.height_eq
      cases habsorbs : connective.absorbs incoming.connective with
      | true =>
          simp only [partsIn, depthIn, habsorbs, if_true]
          omega
      | false =>
          simp only [partsIn, depthIn, habsorbs, Rule.heightAll, Bool.false_eq_true, if_false]
          omega

theorem part_of_mem_partsIn {operand : Operand} (h : operand.WellFormed)
    {connective : Connective} {part : Rule} (hpart : part ∈ operand.partsIn connective) :
    connective.absorbs part.connective = false ∧ part.isJoined = true := by
  cases operand with
  | recipient lone =>
      cases hpart
  | rule incoming depth =>
      rcases h with ⟨hjoined, -⟩
      cases habsorbs : connective.absorbs incoming.connective with
      | true =>
          simp only [partsIn, habsorbs, if_true] at hpart
          have hsame : connective = incoming.connective :=
            (Connective.absorbs_iff.mp habsorbs).1
          rw [hsame]
          exact (Rule.isJoined_iff.mp hjoined).2 part hpart
      | false =>
          simp only [partsIn, habsorbs, Bool.false_eq_true, if_false, List.mem_singleton] at hpart
          rw [hpart]
          exact ⟨habsorbs, hjoined⟩

/-- The number of operands that an operand brings into a node. -/
def countIn (connective : Connective) (operand : Operand) : Nat :=
  (operand.recipientsIn connective).length + (operand.partsIn connective).length

theorem countIn_pos {operand : Operand} (h : operand.WellFormed) (connective : Connective) :
    0 < operand.countIn connective := by
  cases operand with
  | recipient lone =>
      exact Nat.one_pos
  | rule incoming depth =>
      cases habsorbs : connective.absorbs incoming.connective with
      | true =>
          simp only [countIn, recipientsIn, partsIn, habsorbs, if_true]
          exact Rule.operandCount_pos_of_isJoined h.1
      | false =>
          simp [countIn, recipientsIn, partsIn, habsorbs]

theorem countIn_of_unary {connective : Connective} (h : connective.isUnary = true)
    (operand : Operand) : operand.countIn connective = 1 := by
  cases operand with
  | recipient lone =>
      rfl
  | rule incoming depth =>
      simp [countIn, recipientsIn, partsIn, Connective.absorbs, h]

end Operand

theorem operandCount_joined_cons (connective : Connective) (operand : Operand)
    (rest : List Operand) :
    (joined connective (operand :: rest)).1.operandCount =
      operand.countIn connective + (joined connective rest).1.operandCount := by
  simp only [joined_rule, Rule.operandCount, List.flatMap_cons, List.length_append,
    Operand.countIn]
  omega

theorem length_le_operandCount_joined (connective : Connective) {operands : List Operand}
    (h : forall operand, operand ∈ operands -> operand.WellFormed) :
    operands.length ≤ (joined connective operands).1.operandCount := by
  induction operands with
  | nil =>
      exact Nat.zero_le _
  | cons operand rest ih =>
      have hfirst := Operand.countIn_pos (h operand (by simp)) connective
      have hrest := ih fun later hlater => h later (by simp [hlater])
      rw [List.length_cons, operandCount_joined_cons]
      omega

theorem height_joined {connective : Connective} {operands : List Operand}
    (h : forall operand, operand ∈ operands -> operand.WellFormed) :
    (joined connective operands).1.height = (joined connective operands).2 := by
  rw [Rule.height_eq, joined_rule, joined_depth]
  induction operands with
  | nil =>
      rfl
  | cons operand rest ih =>
      have hfirst := Operand.heightAll_partsIn (h operand (by simp)) connective
      have hrest := ih fun later hlater => h later (by simp [hlater])
      simp only at hrest ⊢
      rw [List.flatMap_cons, Rule.heightAll_append, List.map_cons, List.foldl_cons,
        Rule.foldl_max_eq]
      rw [Rule.foldl_max_eq] at hrest
      omega

theorem isJoined_joined {connective : Connective} {operands : List Operand}
    (h : forall operand, operand ∈ operands -> operand.WellFormed)
    (hlength : operands.length = connective.arity) :
    (joined connective operands).1.isJoined = true := by
  have hconnective : (joined connective operands).1.connective = connective := by
    rw [joined_rule]
  apply Rule.isJoined_iff.mpr
  constructor
  · cases hunary : connective.isUnary with
    | true =>
        have harity : connective.arity = 1 := of_decide_eq_true hunary
        rcases List.length_eq_one_iff.mp (hlength.trans harity) with ⟨operand, rfl⟩
        rw [Rule.wellSupplied_iff_of_unary (by rw [hconnective, hunary]),
          operandCount_joined_cons, Operand.countIn_of_unary hunary]
        rfl
    | false =>
        have harity : connective.arity = 2 := by
          cases connective <;> first | rfl | cases hunary
        rw [Rule.wellSupplied_iff_of_binary (by rw [hconnective, hunary]), <- harity, <- hlength]
        exact length_le_operandCount_joined connective h
  · intro part hpart
    rw [joined_rule] at hpart ⊢
    rcases List.mem_flatMap.mp hpart with ⟨operand, hoperand, hbrought⟩
    exact Operand.part_of_mem_partsIn (h operand hoperand) hbrought

theorem wellFormed_join {connective : Connective} {operands : List Operand}
    (h : forall operand, operand ∈ operands -> operand.WellFormed)
    (hlength : operands.length = connective.arity) :
    (join connective operands).WellFormed :=
  ⟨isJoined_joined h hlength, (height_joined h).symm⟩

theorem depth_le_joined {connective : Connective} {operands : List Operand}
    {operand : Operand} (h : operand ∈ operands) :
    operand.depth ≤ (joined connective operands).2 := by
  rw [joined_depth]
  apply Nat.le_trans (operand.depth_le_depthIn connective)
  exact Rule.le_foldl_max (List.mem_map.mpr ⟨operand, h, rfl⟩) 1

theorem depth_join_le_succ (connective : Connective) {operands : List Operand} {bound : Nat}
    (h : forall operand, operand ∈ operands -> operand.depth ≤ bound) :
    (join connective operands).depth ≤ bound + 1 := by
  show (joined connective operands).2 ≤ bound + 1
  rw [joined_depth]
  apply Rule.foldl_max_le (Nat.succ_le_succ (Nat.zero_le bound))
  intro depth hdepth
  rcases List.mem_map.mp hdepth with ⟨operand, hoperand, rfl⟩
  exact Nat.le_trans (operand.depthIn_le connective) (Nat.succ_le_succ (h operand hoperand))

/-!
## One step of the stack

A connective that finds its operands replaces them by the joined one, unless that
is too deep. One that does not is reported with the height of the stack.
-/

theorem step_connective (limit position : Nat) {connective : Connective}
    {operands : List Operand} (hlength : operands.length = connective.arity)
    (rest : List Operand) :
    step limit position (operands.reverse ++ rest) (.connective connective) =
      if limit < (join connective operands).depth then .error (.tooDeep limit)
      else .ok (join connective operands :: rest) := by
  have htake : (operands.reverse ++ rest).take connective.arity = operands.reverse :=
    List.take_left' (by simp [hlength])
  have hdrop : (operands.reverse ++ rest).drop connective.arity = rest :=
    List.drop_left' (by simp [hlength])
  simp only [step, htake, hdrop, List.length_reverse, hlength, Nat.lt_irrefl, if_false,
    List.reverse_reverse]
  rfl

theorem exists_operands {stack : List Operand} {count : Nat} (h : count ≤ stack.length) :
    exists operands rest : List Operand,
      stack = operands.reverse ++ rest ∧ operands.length = count := by
  refine ⟨(stack.take count).reverse, stack.drop count, ?_, ?_⟩
  · rw [List.reverse_reverse, List.take_append_drop]
  · rw [List.length_reverse, List.length_take_of_le h]

theorem step_of_short (limit position : Nat) {stack : List Operand} {connective : Connective}
    (h : stack.length < connective.arity) :
    step limit position stack (.connective connective) =
      .error (.missingOperands connective position connective.arity stack.length) := by
  have htake : stack.take connective.arity = stack := List.take_of_length_le (Nat.le_of_lt h)
  simp only [step, htake, if_pos h]

theorem step_connective_ok {limit position : Nat} {connective : Connective}
    {stack later : List Operand}
    (h : step limit position stack (.connective connective) = .ok later) :
    exists operands rest,
      stack = operands.reverse ++ rest ∧ operands.length = connective.arity ∧
        later = join connective operands :: rest := by
  rcases Nat.lt_or_ge stack.length connective.arity with hshort | henough
  · rw [step_of_short limit position hshort] at h
    cases h
  · rcases exists_operands henough with ⟨operands, rest, rfl, hlength⟩
    refine ⟨operands, rest, rfl, hlength, ?_⟩
    rw [step_connective limit position hlength] at h
    split at h
    · cases h
    · cases h
      rfl

theorem run_single (limit position : Nat) (stack : List Operand) (token : Token) :
    run limit position stack [token] = step limit position stack token := by
  rw [run]
  split
  · rename_i later hstep
    rw [hstep]
    rfl
  · rename_i fault hstep
    exact hstep.symm

theorem finish_eq_ok_iff {stack : List Operand} {rule : Rule} :
    finish stack = .ok rule ↔ exists operand, stack = [operand] ∧ operand.asRule = rule := by
  constructor
  · intro h
    unfold finish at h
    split at h
    · cases h
    · cases h
      exact ⟨_, rfl, rfl⟩
    · cases h
      exact ⟨_, rfl, rfl⟩
    · cases h
  · rintro ⟨operand, rfl, rfl⟩
    cases operand <;> rfl

theorem finish_of_one {stack : List Operand} (h : stack.length = 1) :
    exists rule, finish stack = .ok rule := by
  rcases List.length_eq_one_iff.mp h with ⟨operand, rfl⟩
  exact ⟨operand.asRule, finish_eq_ok_iff.mpr ⟨operand, rfl, rfl⟩⟩

theorem finish_of_many {stack : List Operand} (h : 2 ≤ stack.length) :
    finish stack = .error (.unjoinedOperands stack.length) := by
  match stack, h with
  | first :: second :: rest, _ =>
      cases first <;> rfl

end Expression
end AccessRules
