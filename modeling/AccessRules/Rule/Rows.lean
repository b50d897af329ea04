import AccessRules.Rule.Basic

/-!
# Rows of a rule

The rows list the nodes with their depths, every node before its parts.
-/

namespace AccessRules
namespace Rule

structure Row where
  depth : Nat
  connective : Connective
  recipients : List Recipient
deriving DecidableEq

/-- List the nodes of nested forests, the innermost first. The forest at the
front stands at the given depth and each further one a level above. -/
def listRows (depth : Nat) : List (List Rule) -> Array Row -> Array Row
  | [], rows => rows
  | [] :: outer, rows => listRows (depth - 1) outer rows
  | (rule :: rest) :: outer, rows =>
      listRows (depth + 1) (rule.parts :: rest :: outer)
        (rows.push ⟨depth, rule.connective, rule.recipients⟩)
termination_by forests => (forests.map fun forest => 2 * nodeCountAll forest + 1).foldr (· + ·) 0
decreasing_by
  · simp [nodeCountAll]
  · have hrule := nodeCount_eq rule
    simp only [nodeCountAll, List.map_cons, List.foldr_cons]
    omega

def rows (rule : Rule) : List Row :=
  (listRows 0 [[rule]] #[]).toList

def allRecipients (rule : Rule) : List Recipient :=
  rule.rows.flatMap Row.recipients

mutual

def rowsFrom (depth : Nat) : Rule -> List Row
  | ⟨connective, recipients, parts⟩ =>
      ⟨depth, connective, recipients⟩ :: rowsOfAll (depth + 1) parts

def rowsOfAll (depth : Nat) : List Rule -> List Row
  | [] => []
  | rule :: rest => rowsFrom depth rule ++ rowsOfAll depth rest

end

mutual

theorem listRows_rule (depth : Nat) (rest : List Rule) (outer : List (List Rule))
    (rows : Array Row) :
    (rule : Rule) ->
      listRows depth ((rule :: rest) :: outer) rows =
        listRows depth (rest :: outer) (rows ++ rowsFrom depth rule)
  | ⟨connective, recipients, parts⟩ => by
      rw [listRows, listRows_forest (depth + 1) (rest :: outer) _ parts]
      simp [rowsFrom]

theorem listRows_forest (depth : Nat) (outer : List (List Rule)) (rows : Array Row) :
    (forest : List Rule) ->
      listRows depth (forest :: outer) rows =
        listRows (depth - 1) outer (rows ++ rowsOfAll depth forest)
  | [] => by
      rw [listRows]
      simp [rowsOfAll]
  | rule :: rest => by
      rw [listRows_rule depth rest outer rows rule, listRows_forest depth outer _ rest,
        rowsOfAll]
      congr 1
      apply Array.ext'
      simp

end

theorem rows_eq_rowsFrom (rule : Rule) : rule.rows = rowsFrom 0 rule := by
  rw [rows, listRows_rule, listRows_forest, listRows]
  simp [rowsOfAll]

end Rule
end AccessRules
