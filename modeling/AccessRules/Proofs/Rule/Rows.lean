import AccessRules.Rule.Rows

/-!
# Rows and heights

The nesting depth of a rule is one more than the largest depth among its rows, and
the recipients in the rows are those of the node and of its parts.
-/

namespace AccessRules
namespace Rule

/-!
## Largest members
-/

theorem foldl_max_eq (depths : List Nat) (start : Nat) :
    depths.foldl max start = max start (depths.foldl max 0) := by
  induction depths generalizing start with
  | nil =>
      simp
  | cons depth rest ih =>
      rw [List.foldl_cons, List.foldl_cons, ih (max start depth), ih (max 0 depth)]
      omega

theorem le_foldl_max {depths : List Nat} {depth : Nat} (h : depth ∈ depths) (start : Nat) :
    depth ≤ depths.foldl max start := by
  induction depths generalizing start with
  | nil =>
      cases h
  | cons first rest ih =>
      rw [List.foldl_cons]
      cases h with
      | head =>
          rw [foldl_max_eq]
          omega
      | tail _ hrest =>
          exact ih hrest _

theorem foldl_max_le {depths : List Nat} {start bound : Nat} (hstart : start ≤ bound)
    (h : forall depth, depth ∈ depths -> depth ≤ bound) : depths.foldl max start ≤ bound := by
  induction depths generalizing start with
  | nil =>
      exact hstart
  | cons first rest ih =>
      rw [List.forall_mem_cons] at h
      exact ih (Nat.max_le.mpr ⟨hstart, h.1⟩) h.2

theorem foldl_max_append (left right : List Nat) :
    (left ++ right).foldl max 0 = max (left.foldl max 0) (right.foldl max 0) := by
  rw [List.foldl_append, foldl_max_eq]

/-!
## The deepest row
-/

/-- The largest depth among the rows. -/
def deepest (rule : Rule) : Nat :=
  (rule.rows.map Row.depth).foldl max 0

mutual

theorem foldl_max_rowsFrom (depth : Nat) :
    (rule : Rule) ->
      ((rowsFrom depth rule).map Row.depth).foldl max 0 + 1 = depth + rule.height
  | ⟨connective, recipients, parts⟩ => by
      have hparts := foldl_max_rowsOfAll depth parts
      rw [rowsFrom, List.map_cons, List.foldl_cons, foldl_max_eq, height]
      show max (max 0 depth) _ + 1 = _
      omega

theorem foldl_max_rowsOfAll (depth : Nat) :
    (rules : List Rule) ->
      max depth (((rowsOfAll (depth + 1) rules).map Row.depth).foldl max 0) =
        depth + heightAll rules
  | [] => by
      simp [rowsOfAll, heightAll]
  | rule :: rest => by
      have hrule := foldl_max_rowsFrom (depth + 1) rule
      have hrest := foldl_max_rowsOfAll depth rest
      rw [rowsOfAll, List.map_append, foldl_max_append, heightAll]
      omega

end

theorem deepest_eq (rule : Rule) : rule.deepest + 1 = rule.height := by
  rw [deepest, rows_eq_rowsFrom, foldl_max_rowsFrom, Nat.zero_add]

/-!
## Recipients in the rows

At whatever depth a rule is listed, its rows hold the same recipients. So those of
a node come before those of its parts.
-/

mutual

theorem recipients_rowsFrom (depth : Nat) :
    (rule : Rule) -> (rowsFrom depth rule).flatMap Row.recipients = rule.allRecipients
  | ⟨connective, recipients, parts⟩ => by
      rw [allRecipients, rows_eq_rowsFrom, rowsFrom, rowsFrom, List.flatMap_cons,
        List.flatMap_cons, recipients_rowsOfAll (depth + 1) parts,
        recipients_rowsOfAll (0 + 1) parts]

theorem recipients_rowsOfAll (depth : Nat) :
    (rules : List Rule) ->
      (rowsOfAll depth rules).flatMap Row.recipients = rules.flatMap allRecipients
  | [] => rfl
  | rule :: rest => by
      rw [rowsOfAll, List.flatMap_append, List.flatMap_cons, recipients_rowsFrom depth rule,
        recipients_rowsOfAll depth rest]

end

theorem allRecipients_eq (rule : Rule) :
    rule.allRecipients = rule.recipients ++ rule.parts.flatMap allRecipients := by
  cases rule
  rw [allRecipients, rows_eq_rowsFrom, rowsFrom, List.flatMap_cons, recipients_rowsOfAll]

/-!
## Rows determine the rule

The rows behind a rule stand no deeper than the rule itself, and the rows of its parts all
stand deeper. So it can be told from the depths where each part ends.
-/

/-- The rows go on at the given depth or further out. -/
def GoOnWithin (depth : Nat) (rows : List Row) : Prop :=
  forall row, row ∈ rows.head? -> row.depth ≤ depth

@[simp] theorem goOnWithin_nil (depth : Nat) : GoOnWithin depth [] :=
  nofun

theorem rowsFrom_eq_cons (depth : Nat) (rule : Rule) :
    rowsFrom depth rule =
      ⟨depth, rule.connective, rule.recipients⟩ :: rowsOfAll (depth + 1) rule.parts := by
  cases rule
  rw [rowsFrom]

theorem rowsOfAll_cons_append (depth : Nat) (rule : Rule) (rest : List Rule) (later : List Row) :
    rowsOfAll depth (rule :: rest) ++ later =
      rowsFrom depth rule ++ (rowsOfAll depth rest ++ later) := by
  rw [rowsOfAll, List.append_assoc]

theorem not_goOnWithin_rowsOfAll_cons (depth : Nat) (rule : Rule) (rest : List Rule)
    (later : List Row) :
    ¬ GoOnWithin depth (rowsOfAll (depth + 1) (rule :: rest) ++ later) := by
  intro h
  rw [rowsOfAll_cons_append, rowsFrom_eq_cons] at h
  exact absurd (h _ rfl) (Nat.not_succ_le_self depth)

theorem goOnWithin_rowsOfAll_append {depth : Nat} {later : List Row}
    (hlater : GoOnWithin depth later) (rules : List Rule) :
    GoOnWithin (depth + 1) (rowsOfAll (depth + 1) rules ++ later) := by
  intro row hrow
  cases rules with
  | nil =>
      exact Nat.le_succ_of_le (hlater row hrow)
  | cons rule rest =>
      rw [rowsOfAll_cons_append, rowsFrom_eq_cons] at hrow
      cases hrow
      exact Nat.le_refl (depth + 1)

mutual

theorem rowsFrom_append_inj {depth : Nat} {later otherLater : List Row}
    (hlater : GoOnWithin depth later) (hother : GoOnWithin depth otherLater) :
    (rule other : Rule) ->
      rowsFrom depth rule ++ later = rowsFrom depth other ++ otherLater ->
        rule = other ∧ later = otherLater
  | ⟨connective, recipients, parts⟩, other, h => by
      rw [rowsFrom_eq_cons, rowsFrom_eq_cons, List.cons_append, List.cons_append] at h
      injection h with hrow hrows
      injection hrow with _ hconnective hrecipients
      rcases rowsOfAll_append_inj hlater hother parts other.parts hrows with ⟨hparts, hrest⟩
      cases other
      exact ⟨(mk.injEq ..).mpr ⟨hconnective, hrecipients, hparts⟩, hrest⟩

theorem rowsOfAll_append_inj {depth : Nat} {later otherLater : List Row}
    (hlater : GoOnWithin depth later) (hother : GoOnWithin depth otherLater) :
    (rules others : List Rule) ->
      rowsOfAll (depth + 1) rules ++ later = rowsOfAll (depth + 1) others ++ otherLater ->
        rules = others ∧ later = otherLater
  | [], [], h => ⟨rfl, h⟩
  | [], other :: others, h => by
      have hnone : rowsOfAll (depth + 1) [] ++ later = later := rfl
      rw [hnone] at h
      rw [h] at hlater
      exact absurd hlater (not_goOnWithin_rowsOfAll_cons depth other others otherLater)
  | rule :: rest, [], h => by
      have hnone : rowsOfAll (depth + 1) [] ++ otherLater = otherLater := rfl
      rw [hnone] at h
      rw [<- h] at hother
      exact absurd hother (not_goOnWithin_rowsOfAll_cons depth rule rest later)
  | rule :: rest, other :: others, h => by
      rw [rowsOfAll_cons_append, rowsOfAll_cons_append] at h
      rcases rowsFrom_append_inj (goOnWithin_rowsOfAll_append hlater rest)
          (goOnWithin_rowsOfAll_append hother others) rule other h with ⟨hrule, hrows⟩
      rcases rowsOfAll_append_inj hlater hother rest others hrows with ⟨hrest, hbehind⟩
      exact ⟨by rw [hrule, hrest], hbehind⟩

end

theorem rows_injective {rule other : Rule} (h : rule.rows = other.rows) : rule = other := by
  rw [rows_eq_rowsFrom, rows_eq_rowsFrom] at h
  have happend := congrArg (· ++ []) h
  exact (rowsFrom_append_inj (goOnWithin_nil 0) (goOnWithin_nil 0) rule other happend).1

end Rule
end AccessRules
