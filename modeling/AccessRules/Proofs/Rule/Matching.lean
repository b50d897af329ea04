import AccessRules.Proofs.Rule.Equivalence
import AccessRules.Proofs.Rule.Labels

/-!
# Equivalence as a matching of parts

Rules are equivalent when they join the same recipients and their parts can be
matched one to one with equivalent parts. The numbers of the parts tell whether they
can: there is a matching exactly when the numbers of both sides are the same up to
order. So labels make no difference, and neither do parts that both sides hold.
-/

namespace AccessRules
namespace Rule

/-!
## One level of equivalence
-/

/-- The parts of one node can be brought into an order in which each is equivalent to
its counterpart in the other. -/
def Matched (parts others : List Rule) : Prop :=
  exists reordered, reordered.Perm others ∧ List.Forall₂ Equivalent parts reordered

theorem equivalent_iff {a b : Rule} :
    Equivalent a b ↔
      a.connective = b.connective ∧
        (a.recipients.map Recipient.identity).Perm (b.recipients.map Recipient.identity) ∧
          Matched a.parts b.parts := by
  constructor
  · intro h
    cases h with
    | node reordered hconnective hrecipients hreordered hpaired =>
        exact ⟨hconnective, hrecipients, reordered, hreordered,
          pairwiseEquivalent_iff.mp hpaired⟩
  · rintro ⟨hconnective, hrecipients, reordered, hreordered, hpaired⟩
    exact Equivalent.node reordered hconnective hrecipients hreordered
      (pairwiseEquivalent_iff.mpr hpaired)

/-!
Parts that are only reordered match, and parts of both sides that match may be put side by side.
-/

theorem matched_of_perm {parts others : List Rule} (h : parts.Perm others) :
    Matched parts others :=
  ⟨parts, h, List.forall₂_refl parts⟩

theorem matched_append {parts others later otherLater : List Rule} (h : Matched parts others)
    (hlater : Matched later otherLater) : Matched (parts ++ later) (others ++ otherLater) := by
  rcases h with ⟨reordered, hperm, hpaired⟩
  rcases hlater with ⟨reorderedLater, hlaterPerm, hlaterPaired⟩
  exact ⟨reordered ++ reorderedLater, hperm.append hlaterPerm,
    List.rel_append hpaired hlaterPaired⟩

/-!
## Matchings by numbers
-/

theorem matched_iff_perm {table : ShapeTable} (hsound : SoundTable table)
    {parts others : List Rule} {numbers otherNumbers : List Nat}
    (h : numbersIn? table parts = some numbers)
    (hother : numbersIn? table others = some otherNumbers) :
    Matched parts others ↔ numbers.Perm otherNumbers := by
  constructor
  · rintro ⟨reordered, hreordered, hpaired⟩
    rcases List.perm_comp_forall₂ hreordered (numbersIn?_eq_some_iff.mp hother) with
      ⟨renumbered, hrenumbered, hperm⟩
    have hequal := (numbers_eq_iff hsound parts reordered numbers renumbered h
      (numbersIn?_eq_some_iff.mpr hrenumbered)).mpr (pairwiseEquivalent_iff.mpr hpaired)
    rw [hequal]
    exact hperm
  · intro hperm
    rcases List.perm_comp_forall₂ hperm (List.Forall₂.flip (numbersIn?_eq_some_iff.mp hother)) with
      ⟨reordered, hflip, hreordered⟩
    have hrenumbered := numbersIn?_eq_some_iff.mpr (List.Forall₂.flip hflip)
    exact ⟨reordered, hreordered, pairwiseEquivalent_iff.mp
      ((numbers_eq_iff hsound parts reordered numbers numbers h hrenumbered).mp rfl)⟩

theorem numbersIn?_append {table : ShapeTable} {parts later : List Rule}
    {numbers laterNumbers : List Nat} (h : numbersIn? table parts = some numbers)
    (hlater : numbersIn? table later = some laterNumbers) :
    numbersIn? table (parts ++ later) = some (numbers ++ laterNumbers) :=
  numbersIn?_eq_some_iff.mpr
    (List.rel_append (numbersIn?_eq_some_iff.mp h) (numbersIn?_eq_some_iff.mp hlater))

/-- Any three lists of rules can be numbered by one table. -/
theorem exists_numbers_of_lists (parts others shared : List Rule) :
    exists table numbers otherNumbers sharedNumbers,
      SoundTable table ∧ numbersIn? table parts = some numbers ∧
        numbersIn? table others = some otherNumbers ∧
          numbersIn? table shared = some sharedNumbers := by
  rcases foldTrees_numberShape soundTable_empty parts with ⟨hfirst, -, hnumbers⟩
  rcases foldTrees_numberShape hfirst others with ⟨hsecond, hgrown, hotherNumbers⟩
  rcases foldTrees_numberShape hsecond shared with ⟨hthird, hfurther, hsharedNumbers⟩
  exact ⟨_, _, _, _, hthird,
    numbersIn?_of_extends (extends_trans hgrown hfurther) parts _ hnumbers,
    numbersIn?_of_extends hfurther others _ hotherNumbers, hsharedNumbers⟩

theorem matched_append_iff (parts others shared : List Rule) :
    Matched (parts ++ shared) (others ++ shared) ↔ Matched parts others := by
  rcases exists_numbers_of_lists parts others shared with
    ⟨table, numbers, otherNumbers, sharedNumbers, hsound, h, hother, hshared⟩
  rw [matched_iff_perm hsound (numbersIn?_append h hshared) (numbersIn?_append hother hshared),
    matched_iff_perm hsound h hother, List.perm_append_right_iff]

theorem isEquivalent_addShared (a b : Rule) (shared : List Rule) :
    { a with parts := a.parts ++ shared }.isEquivalent { b with parts := b.parts ++ shared } =
      a.isEquivalent b := by
  rw [Bool.eq_iff_iff, isEquivalent_iff, isEquivalent_iff, equivalent_iff, equivalent_iff,
    matched_append_iff]

/-!
## Tables in use

The table may hold the shapes of any rules that have been numbered before.
-/

def tableAfter (table : ShapeTable) (seen : List Rule) : ShapeTable :=
  seen.foldl (fun table rule => (foldUpWith numberShape table rule).1) table

theorem soundTable_tableAfter {table : ShapeTable} (hsound : SoundTable table)
    (seen : List Rule) : SoundTable (tableAfter table seen) := by
  induction seen generalizing table with
  | nil =>
      exact hsound
  | cons rule rest ih =>
      apply ih
      show SoundTable (foldUpWith numberShape table rule).1
      rw [foldUpWith, continueFold_root]
      exact (foldTree_numberShape hsound rule).1

/-- Whether two rules get one number after some other rules have been numbered. -/
def isEquivalentAfter (seen : List Rule) (a b : Rule) : Bool :=
  let first := foldUpWith numberShape (tableAfter {} seen) a
  let second := foldUpWith numberShape first.1 b
  first.2 = second.2

theorem isEquivalentAfter_eq (seen : List Rule) (a b : Rule) :
    isEquivalentAfter seen a b = a.isEquivalent b := by
  rw [Bool.eq_iff_iff, isEquivalentAfter, decide_eq_true_iff, isEquivalent_iff]
  exact equal_numbers_iff (soundTable_tableAfter soundTable_empty seen) a b

/-!
## Labels
-/

mutual

theorem equivalent_namedTree (naming : Naming) :
    (rule : Rule) -> Equivalent (namedTree naming rule) rule
  | ⟨connective, recipients, parts⟩ => by
      have hrecipients : (recipients.map (Recipient.named naming)).map Recipient.identity =
          recipients.map Recipient.identity := by
        rw [List.map_map]
        exact List.map_congr_left fun recipient _ => recipient.identity_named naming
      rw [namedTree]
      exact equivalent_mk connective (List.Perm.of_eq hrecipients) (List.Perm.refl parts)
        (equivalent_namedTrees naming parts)

theorem equivalent_namedTrees (naming : Naming) :
    (rules : List Rule) -> List.Forall₂ Equivalent (namedTrees naming rules) rules
  | [] => List.Forall₂.nil
  | rule :: rest =>
      List.Forall₂.cons (equivalent_namedTree naming rule) (equivalent_namedTrees naming rest)

end

theorem equivalent_of_same {a b : Rule} (h : a.same b = true) : Equivalent a b := by
  have ha : Equivalent a a.unlabelled := equivalent_symm (equivalent_namedTree _ a)
  rw [same_iff_unlabelled.mp h] at ha
  exact equivalent_trans ha (equivalent_namedTree _ b)

theorem isEquivalent_congr {a b other another : Rule} (h : Equivalent a other)
    (hother : Equivalent b another) : a.isEquivalent b = other.isEquivalent another := by
  rw [Bool.eq_iff_iff, isEquivalent_iff, isEquivalent_iff]
  constructor
  · intro hab
    exact equivalent_trans (equivalent_symm h) (equivalent_trans hab hother)
  · intro hab
    exact equivalent_trans h (equivalent_trans hab (equivalent_symm hother))

theorem isEquivalent_named (naming otherNaming : Naming) (a b : Rule) :
    (a.named naming).isEquivalent (b.named otherNaming) = a.isEquivalent b := by
  rw [named_eq_namedTree, named_eq_namedTree]
  exact isEquivalent_congr (equivalent_namedTree naming a) (equivalent_namedTree otherNaming b)

/-!
## What the comparison of numbers decides
-/

theorem isEquivalent_equivalence :
    Equivalence fun rule other : Rule => rule.isEquivalent other = true where
  refl rule := isEquivalent_iff.mpr (equivalent_refl rule)
  symm h := isEquivalent_iff.mpr (equivalent_symm (isEquivalent_iff.mp h))
  trans h hlater :=
    isEquivalent_iff.mpr
      (equivalent_trans (isEquivalent_iff.mp h) (isEquivalent_iff.mp hlater))

theorem matched_iff_isEquivalent {parts others : List Rule} :
    Matched parts others ↔
      exists reordered,
        reordered.Perm others ∧
          List.Forall₂ (fun part other => part.isEquivalent other = true) parts reordered := by
  simp only [isEquivalent_iff]
  rfl

/-- Rules are found equivalent just when they agree as nested multisets. This is an
equivalence relation that holds of rules that are the same and looks at no labels, and
neither common parts nor shapes that were numbered before make a difference. -/
theorem isEquivalent_decides_matching (a b : Rule) :
    (a.isEquivalent b = true ↔ Equivalent a b) ∧
      (a.isEquivalent b = true ↔
        a.connective = b.connective ∧
          (a.recipients.map Recipient.identity).Perm (b.recipients.map Recipient.identity) ∧
            exists reordered,
              reordered.Perm b.parts ∧
                List.Forall₂ (fun part other => part.isEquivalent other = true)
                  a.parts reordered) ∧
        (Equivalence fun rule other : Rule => rule.isEquivalent other = true) ∧
          (a.same b = true -> a.isEquivalent b = true) ∧
            (forall naming otherNaming,
              (a.named naming).isEquivalent (b.named otherNaming) = a.isEquivalent b) ∧
              (forall shared,
                { a with parts := a.parts ++ shared }.isEquivalent
                  { b with parts := b.parts ++ shared } = a.isEquivalent b) ∧
                forall seen, isEquivalentAfter seen a b = a.isEquivalent b := by
  refine ⟨isEquivalent_iff, ?_, isEquivalent_equivalence, ?_, ?_, ?_, ?_⟩
  · rw [isEquivalent_iff, equivalent_iff, matched_iff_isEquivalent]
  · intro hsame
    exact isEquivalent_iff.mpr (equivalent_of_same hsame)
  · intro naming otherNaming
    exact isEquivalent_named naming otherNaming a b
  · intro shared
    exact isEquivalent_addShared a b shared
  · intro seen
    exact isEquivalentAfter_eq seen a b

theorem isEquivalent_decides_matching_labelled :
    exists a b : Rule,
      a = ⟨.or, [], [⟨.and, [⟨.user, "a", "Ann", rfl⟩], []⟩,
          ⟨.and, [⟨.user, "a", "U:a", rfl⟩], []⟩]⟩ ∧
        b = ⟨.or, [], [⟨.and, [⟨.user, "a", "U:a", rfl⟩], []⟩,
            ⟨.and, [⟨.user, "a", "Ann", rfl⟩], []⟩]⟩ ∧
          a.same b = true ∧ a.isEquivalent b = true := by
  refine ⟨_, _, rfl, rfl, ?_⟩
  have hsame : same
      ⟨.or, [], [⟨.and, [⟨.user, "a", "Ann", rfl⟩], []⟩,
        ⟨.and, [⟨.user, "a", "U:a", rfl⟩], []⟩]⟩
      ⟨.or, [], [⟨.and, [⟨.user, "a", "U:a", rfl⟩], []⟩,
        ⟨.and, [⟨.user, "a", "Ann", rfl⟩], []⟩]⟩ = true := by
    rw [same_eq_sameTree]
    rfl
  exact ⟨hsame, (isEquivalent_decides_matching _ _).2.2.2.1 hsame⟩

end Rule
end AccessRules
