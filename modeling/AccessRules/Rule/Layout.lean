import AccessRules.Rule.Basic

/-!
# Writing rules piece by piece

A written form is given node by node: pieces of output with exactly one place for each part, in
order. The pieces that are still to be written are kept in a list.
-/

namespace AccessRules
namespace Rule

inductive Piece (α : Type) where
  | output (item : α)
  | part (rule : Rule)

namespace Piece

def part? : Piece α -> Option Rule
  | output _ => none
  | part rule => some rule

def partsOf (pieces : List (Piece α)) : List Rule :=
  pieces.filterMap part?

@[simp] theorem partsOf_nil : partsOf ([] : List (Piece α)) = [] := rfl

@[simp] theorem partsOf_append (left right : List (Piece α)) :
    partsOf (left ++ right) = partsOf left ++ partsOf right := by
  rw [partsOf, List.filterMap_append]
  rfl

@[simp] theorem partsOf_cons_output (item : α) (later : List (Piece α)) :
    partsOf (output item :: later) = partsOf later := rfl

@[simp] theorem partsOf_cons_part (rule : Rule) (later : List (Piece α)) :
    partsOf (part rule :: later) = rule :: partsOf later := rfl

@[simp] theorem partsOf_map_output (items : List β) (item : β -> α) :
    partsOf (items.map fun source => output (item source)) = [] := by
  induction items with
  | nil => rfl
  | cons source rest ih => exact ih

@[simp] theorem partsOf_map_part (rules : List Rule) :
    partsOf (rules.map (part : Rule -> Piece α)) = rules := by
  induction rules with
  | nil => rfl
  | cons rule rest ih =>
      simp [ih]

end Piece

structure Layout (α : Type) where
  pieces : Rule -> List (Piece α)
  complete : forall rule, Piece.partsOf (pieces rule) = rule.parts

namespace Layout

/-- Write the pieces that are left, behind what has been written. -/
def writeAll (layout : Layout α) : List (Piece α) -> Array α -> Array α
  | [], written => written
  | .output item :: later, written => writeAll layout later (written.push item)
  | .part rule :: later, written => writeAll layout (layout.pieces rule ++ later) written
termination_by pieces => (nodeCountAll (Piece.partsOf pieces), pieces.length)
decreasing_by
  · apply Prod.Lex.right'
    · exact Nat.le_refl (nodeCountAll (Piece.partsOf later))
    · exact Nat.lt_succ_self _
  · apply Prod.Lex.left
    have hrule := nodeCount_eq rule
    rw [Piece.partsOf_append, layout.complete, nodeCountAll_append,
      Piece.partsOf_cons_part, nodeCountAll]
    omega

def write (layout : Layout α) (rule : Rule) : List α :=
  (layout.writeAll [.part rule] #[]).toList

/-!
## The written form of a node

The loop writes one piece after the other, and it only appends.
-/

theorem pieces_induction (layout : Layout α) {motive : List (Piece α) -> Prop}
    (nil : motive [])
    (output : forall item later, motive later -> motive (.output item :: later))
    (part : forall rule later,
      motive (layout.pieces rule ++ later) -> motive (.part rule :: later))
    (pieces : List (Piece α)) : motive pieces :=
  writeAll.induct layout (fun pieces _ => motive pieces) (fun _ => nil)
    (fun item later _ => output item later) (fun rule later _ => part rule later) pieces #[]

theorem writeAll_append (layout : Layout α) (first second : List (Piece α)) :
    forall written,
      layout.writeAll (first ++ second) written =
        layout.writeAll second (layout.writeAll first written) := by
  induction first using layout.pieces_induction with
  | nil =>
      intro written
      rw [List.nil_append, writeAll.eq_1]
  | output item later ih =>
      intro written
      rw [List.cons_append, writeAll, writeAll, ih]
  | part rule later ih =>
      intro written
      rw [List.cons_append, writeAll, writeAll, <- List.append_assoc, ih]

theorem toList_writeAll (layout : Layout α) (pieces : List (Piece α)) :
    forall written,
      (layout.writeAll pieces written).toList =
        written.toList ++ (layout.writeAll pieces #[]).toList := by
  induction pieces using layout.pieces_induction with
  | nil =>
      intro written
      simp [writeAll]
  | output item later ih =>
      intro written
      rw [writeAll, writeAll, ih (written.push item), ih (#[].push item)]
      simp
  | part rule later ih =>
      intro written
      rw [writeAll, writeAll, ih]

/-- What a piece contributes to the written form. -/
def expand (layout : Layout α) : Piece α -> List α
  | .output item => [item]
  | .part rule => layout.write rule

theorem toList_writeAll_nil (layout : Layout α) (pieces : List (Piece α)) :
    (layout.writeAll pieces #[]).toList = pieces.flatMap layout.expand := by
  induction pieces with
  | nil =>
      simp [writeAll]
  | cons piece later ih =>
      rw [<- List.singleton_append, writeAll_append, toList_writeAll, ih, List.flatMap_append]
      congr 1
      cases piece with
      | output item =>
          simp [writeAll, expand]
      | part rule =>
          simp [write, expand]

theorem write_eq (layout : Layout α) (rule : Rule) :
    layout.write rule = (layout.pieces rule).flatMap layout.expand := by
  rw [write, writeAll, List.append_nil, toList_writeAll_nil]

end Layout

end Rule
end AccessRules
