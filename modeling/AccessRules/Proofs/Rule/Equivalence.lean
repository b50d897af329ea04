import Mathlib.Data.List.Perm.Basic
import AccessRules.Rule.Equivalence
import AccessRules.Proofs.Recipient.Order

/-!
# Numbers of shapes decide equivalence

While rules are numbered, the table only grows, and no two shapes share a number.
So the number of a rule can be looked up in any later table, and two rules have
one number exactly when they are equivalent.
-/

namespace AccessRules
namespace Rule

/-!
## Sorted shapes
-/

theorem identityInOrder_trans (a b c : Kind × String) (h : identityInOrder a b = true)
    (hlater : identityInOrder b c = true) : identityInOrder a c = true :=
  Std.TransCmp.isLE_trans h hlater

theorem identityInOrder_total (a b : Kind × String) :
    (identityInOrder a b || identityInOrder b a) = true := by
  have hswap : Recipient.compareIdentity b a = (Recipient.compareIdentity a b).swap :=
    Std.OrientedCmp.eq_swap
  rw [identityInOrder, identityInOrder, hswap]
  cases Recipient.compareIdentity a b
  all_goals rfl

theorem sort_identities_eq_iff {left right : List (Kind × String)} :
    left.mergeSort identityInOrder = right.mergeSort identityInOrder ↔ left.Perm right := by
  apply mergeSort_eq_iff_perm identityInOrder_trans identityInOrder_total
  intro a b hab hba
  exact Recipient.compareIdentity_eq_eq_iff.mp (Std.OrientedCmp.isLE_antisymm hab hba)

theorem sort_numbers_eq_iff {left right : List Nat} :
    left.mergeSort (· ≤ ·) = right.mergeSort (· ≤ ·) ↔ left.Perm right := by
  apply mergeSort_eq_iff_perm
  · intro a b c hab hbc
    simp only [decide_eq_true_eq] at hab hbc ⊢
    exact Nat.le_trans hab hbc
  · intro a b
    simpa using Nat.le_total a b
  · intro a b hab hba
    simp only [decide_eq_true_eq] at hab hba
    exact Nat.le_antisymm hab hba

theorem shapeOf_eq_iff {a b : Rule} {left right : List Nat} :
    shapeOf a left = shapeOf b right ↔
      a.connective = b.connective ∧
        (a.recipients.map Recipient.identity).Perm (b.recipients.map Recipient.identity) ∧
          left.Perm right := by
  rw [shapeOf, shapeOf, Shape.mk.injEq, sort_identities_eq_iff, sort_numbers_eq_iff]

/-!
## Tables

A table is sound when its numbers lie below its size and belong to one shape each.
-/

structure SoundTable (table : ShapeTable) : Prop where
  below : forall (shape : Shape) (number : Nat), table[shape]? = some number -> number < table.size
  apart : forall (shape other : Shape) (number : Nat),
    table[shape]? = some number -> table[other]? = some number -> shape = other

/-- Whatever is in the older table has the same number in the newer one. -/
def Extends (older newer : ShapeTable) : Prop :=
  forall (shape : Shape) (number : Nat),
    older[shape]? = some number -> newer[shape]? = some number

theorem extends_refl (table : ShapeTable) : Extends table table := by
  intro shape number h
  exact h

theorem extends_trans {first second third : ShapeTable} (h : Extends first second)
    (hlater : Extends second third) : Extends first third := by
  intro shape number hshape
  exact hlater shape number (h shape number hshape)

theorem soundTable_empty : SoundTable {} := by
  constructor
  · intro shape number h
    simp at h
  · intro shape other number h
    simp at h

theorem getElem?_insert_eq_some {table : ShapeTable} {shape other : Shape} {fresh number : Nat}
    (h : (table.insert shape fresh)[other]? = some number) :
    other = shape ∧ number = fresh ∨ table[other]? = some number := by
  rw [Std.HashMap.getElem?_insert] at h
  split at h
  · rename_i hshape
    exact Or.inl ⟨(eq_of_beq hshape).symm, (Option.some.inj h).symm⟩
  · exact Or.inr h

theorem extends_insert {table : ShapeTable} {shape : Shape} (hnew : table[shape]? = none)
    (fresh : Nat) : Extends table (table.insert shape fresh) := by
  intro other number h
  have hdifferent : shape ≠ other := by
    intro heq
    rw [heq, h] at hnew
    cases hnew
  rw [Std.HashMap.getElem?_insert, if_neg (by simpa using hdifferent)]
  exact h

theorem soundTable_insert {table : ShapeTable} (hsound : SoundTable table) {shape : Shape}
    (hnew : table[shape]? = none) : SoundTable (table.insert shape table.size) := by
  have hmissing : shape ∉ table := by
    simpa using hnew
  constructor
  · intro other number h
    rw [Std.HashMap.size_insert, if_neg hmissing]
    rcases getElem?_insert_eq_some h with ⟨-, rfl⟩ | hold
    · exact Nat.lt_succ_self _
    · exact Nat.lt_succ_of_lt (hsound.below other number hold)
  · intro other another number h hanother
    rcases getElem?_insert_eq_some h with ⟨rfl, rfl⟩ | hold
    · rcases getElem?_insert_eq_some hanother with ⟨rfl, -⟩ | holdAnother
      · rfl
      · exact absurd (hsound.below another _ holdAnother) (Nat.lt_irrefl _)
    · rcases getElem?_insert_eq_some hanother with ⟨-, rfl⟩ | holdAnother
      · exact absurd (hsound.below other _ hold) (Nat.lt_irrefl _)
      · exact hsound.apart other another number hold holdAnother

theorem numberShape_spec {table : ShapeTable} (hsound : SoundTable table) (node : Rule)
    (parts : List Nat) :
    SoundTable (numberShape table node parts).1 ∧
      Extends table (numberShape table node parts).1 ∧
        (numberShape table node parts).1[shapeOf node parts]? =
          some (numberShape table node parts).2 := by
  cases hfound : table[shapeOf node parts]? with
  | some number =>
      have hkept : numberShape table node parts = (table, number) := by
        simp only [numberShape, hfound]
      rw [hkept]
      exact ⟨hsound, extends_refl table, hfound⟩
  | none =>
      have hinserted : numberShape table node parts =
          (table.insert (shapeOf node parts) table.size, table.size) := by
        simp only [numberShape, hfound]
      rw [hinserted]
      exact ⟨soundTable_insert hsound hfound, extends_insert hfound table.size,
        Std.HashMap.getElem?_insert_self⟩

/-!
## Looking numbers up
-/

mutual

/-- The number that a table gives to a rule, if all shapes in it are there. -/
def numberIn? (table : ShapeTable) : Rule -> Option Nat
  | ⟨connective, recipients, parts⟩ =>
      match numbersIn? table parts with
      | some numbers => table[shapeOf ⟨connective, recipients, parts⟩ numbers]?
      | none => none

def numbersIn? (table : ShapeTable) : List Rule -> Option (List Nat)
  | [] => some []
  | rule :: rest =>
      match numberIn? table rule, numbersIn? table rest with
      | some number, some numbers => some (number :: numbers)
      | _, _ => none

end

theorem numberIn?_eq_some_iff {table : ShapeTable} {rule : Rule} {number : Nat} :
    numberIn? table rule = some number ↔
      exists numbers,
        numbersIn? table rule.parts = some numbers ∧
          table[shapeOf rule numbers]? = some number := by
  cases rule
  rw [numberIn?]
  constructor
  · intro h
    split at h
    · rename_i numbers hnumbers
      exact ⟨numbers, hnumbers, h⟩
    · cases h
  · rintro ⟨numbers, hnumbers, h⟩
    rw [hnumbers]
    exact h

theorem numbersIn?_eq_some_iff {table : ShapeTable} {rules : List Rule} {numbers : List Nat} :
    numbersIn? table rules = some numbers ↔
      List.Forall₂ (fun rule number => numberIn? table rule = some number) rules numbers := by
  induction rules generalizing numbers with
  | nil =>
      simp [numbersIn?, eq_comm]
  | cons rule rest ih =>
      rw [numbersIn?]
      constructor
      · intro h
        split at h
        · rename_i number later hnumber hlater
          cases h
          exact List.Forall₂.cons hnumber (ih.mp hlater)
        · cases h
      · intro h
        cases h with
        | cons hnumber hlater =>
            rw [hnumber, ih.mpr hlater]

mutual

theorem numberIn?_of_extends {older newer : ShapeTable} (hextends : Extends older newer) :
    (rule : Rule) -> forall number,
      numberIn? older rule = some number -> numberIn? newer rule = some number
  | ⟨connective, recipients, parts⟩ => by
      intro number h
      rcases numberIn?_eq_some_iff.mp h with ⟨numbers, hnumbers, hshape⟩
      exact numberIn?_eq_some_iff.mpr
        ⟨numbers, numbersIn?_of_extends hextends parts numbers hnumbers, hextends _ _ hshape⟩

theorem numbersIn?_of_extends {older newer : ShapeTable} (hextends : Extends older newer) :
    (rules : List Rule) -> forall numbers,
      numbersIn? older rules = some numbers -> numbersIn? newer rules = some numbers
  | [] => by
      intro numbers h
      exact h
  | rule :: rest => by
      intro numbers h
      rw [numbersIn?_eq_some_iff] at h
      cases h with
      | cons hnumber hlater =>
          rw [numbersIn?, numberIn?_of_extends hextends rule _ hnumber,
            numbersIn?_of_extends hextends rest _ (numbersIn?_eq_some_iff.mpr hlater)]

end

mutual

theorem foldTree_numberShape {table : ShapeTable} (hsound : SoundTable table) :
    (rule : Rule) ->
      SoundTable (foldTree numberShape table rule).1 ∧
        Extends table (foldTree numberShape table rule).1 ∧
          numberIn? (foldTree numberShape table rule).1 rule =
            some (foldTree numberShape table rule).2
  | ⟨connective, recipients, parts⟩ => by
      rcases foldTrees_numberShape hsound parts with ⟨hparts, hgrown, hnumbers⟩
      rw [foldTree]
      rcases numberShape_spec hparts ⟨connective, recipients, parts⟩
        (foldTrees numberShape table parts).2 with ⟨hnode, hfurther, hshape⟩
      refine ⟨hnode, extends_trans hgrown hfurther, ?_⟩
      exact numberIn?_eq_some_iff.mpr
        ⟨_, numbersIn?_of_extends hfurther parts _ hnumbers, hshape⟩

theorem foldTrees_numberShape {table : ShapeTable} (hsound : SoundTable table) :
    (rules : List Rule) ->
      SoundTable (foldTrees numberShape table rules).1 ∧
        Extends table (foldTrees numberShape table rules).1 ∧
          numbersIn? (foldTrees numberShape table rules).1 rules =
            some (foldTrees numberShape table rules).2
  | [] => ⟨hsound, extends_refl table, rfl⟩
  | rule :: rest => by
      rcases foldTree_numberShape hsound rule with ⟨hfirst, hgrown, hnumber⟩
      rcases foldTrees_numberShape hfirst rest with ⟨hlater, hfurther, hnumbers⟩
      rw [foldTrees]
      refine ⟨hlater, extends_trans hgrown hfurther, ?_⟩
      rw [numbersIn?, numberIn?_of_extends hfurther rule _ hnumber, hnumbers]

end

/-!
## Equal numbers mean equivalent rules

The parts of two nodes of one shape have the same numbers up to order, so those
of the second can be brought into the order of the first.
-/

mutual

theorem number_eq_iff {table : ShapeTable} (hsound : SoundTable table) :
    (a : Rule) -> forall b m n,
      numberIn? table a = some m -> numberIn? table b = some n -> (m = n ↔ Equivalent a b)
  | ⟨connective, recipients, parts⟩ => by
      intro b m n ha hb
      rcases numberIn?_eq_some_iff.mp ha with ⟨numbers, hnumbers, hshape⟩
      rcases numberIn?_eq_some_iff.mp hb with ⟨others, hothers, hshapeOther⟩
      constructor
      · rintro rfl
        have hsame := hsound.apart _ _ _ hshape hshapeOther
        rcases shapeOf_eq_iff.mp hsame with ⟨hconnective, hrecipients, hperm⟩
        rcases List.perm_comp_forall₂ hperm
          (List.Forall₂.flip (numbersIn?_eq_some_iff.mp hothers)) with ⟨reordered, hflip, hparts⟩
        have hreordered : numbersIn? table reordered = some numbers :=
          numbersIn?_eq_some_iff.mpr (List.Forall₂.flip hflip)
        exact Equivalent.node reordered hconnective hrecipients hparts
          ((numbers_eq_iff hsound parts reordered numbers numbers hnumbers hreordered).mp rfl)
      · intro h
        cases h with
        | node reordered hconnective hrecipients hparts hpaired =>
            rcases List.perm_comp_forall₂ hparts (numbersIn?_eq_some_iff.mp hothers) with
              ⟨renumbered, hrenumbered, hperm⟩
            have hequal := (numbers_eq_iff hsound parts reordered numbers renumbered hnumbers
              (numbersIn?_eq_some_iff.mpr hrenumbered)).mpr hpaired
            have hsame := shapeOf_eq_iff.mpr ⟨hconnective, hrecipients, hequal ▸ hperm⟩
            rw [hsame, hshapeOther] at hshape
            exact (Option.some.inj hshape).symm

theorem numbers_eq_iff {table : ShapeTable} (hsound : SoundTable table) :
    (as : List Rule) -> forall bs ms ns,
      numbersIn? table as = some ms -> numbersIn? table bs = some ns ->
        (ms = ns ↔ PairwiseEquivalent as bs)
  | [] => by
      intro bs ms ns ha hb
      cases ha
      rw [numbersIn?_eq_some_iff] at hb
      constructor
      · rintro rfl
        cases hb
        exact PairwiseEquivalent.nil
      · intro h
        cases h
        cases hb
        rfl
  | a :: as => by
      intro bs ms ns ha hb
      rw [numbersIn?_eq_some_iff] at ha hb
      cases ha with
      | cons hfirst hlater =>
          constructor
          · rintro rfl
            cases hb with
            | cons hfirstOther hlaterOther =>
                exact PairwiseEquivalent.cons
                  ((number_eq_iff hsound a _ _ _ hfirst hfirstOther).mp rfl)
                  ((numbers_eq_iff hsound as _ _ _ (numbersIn?_eq_some_iff.mpr hlater)
                    (numbersIn?_eq_some_iff.mpr hlaterOther)).mp rfl)
          · intro h
            cases h with
            | cons hequivalent hpaired =>
                cases hb with
                | cons hfirstOther hlaterOther =>
                    rw [(number_eq_iff hsound a _ _ _ hfirst hfirstOther).mpr hequivalent,
                      (numbers_eq_iff hsound as _ _ _ (numbersIn?_eq_some_iff.mpr hlater)
                        (numbersIn?_eq_some_iff.mpr hlaterOther)).mpr hpaired]

end

/-- Whatever a sound table holds already, rules numbered with it get one number just
when they are equivalent. -/
theorem equal_numbers_iff {table : ShapeTable} (hsound : SoundTable table) (a b : Rule) :
    (foldUpWith numberShape table a).2 =
        (foldUpWith numberShape (foldUpWith numberShape table a).1 b).2 ↔ Equivalent a b := by
  rw [foldUpWith, foldUpWith, continueFold_root, continueFold_root]
  rcases foldTree_numberShape hsound a with ⟨hfirst, -, hnumber⟩
  rcases foldTree_numberShape hfirst b with ⟨hsecond, hgrown, hnumberOther⟩
  exact number_eq_iff hsecond a b _ _ (numberIn?_of_extends hgrown a _ hnumber) hnumberOther

theorem isEquivalent_iff {a b : Rule} : a.isEquivalent b = true ↔ Equivalent a b := by
  rw [isEquivalent, decide_eq_true_iff]
  exact equal_numbers_iff soundTable_empty a b

/-!
## Equivalence is an equivalence relation

Any rules can be numbered by one table, and equality of numbers is one.
-/

theorem exists_numbers (rules : List Rule) :
    exists table numbers, SoundTable table ∧ numbersIn? table rules = some numbers := by
  rcases foldTrees_numberShape soundTable_empty rules with ⟨hsound, -, hnumbers⟩
  exact ⟨_, _, hsound, hnumbers⟩

theorem equivalent_refl (rule : Rule) : Equivalent rule rule := by
  rcases foldTree_numberShape soundTable_empty rule with ⟨hsound, -, hnumber⟩
  exact (number_eq_iff hsound rule rule _ _ hnumber hnumber).mp rfl

theorem equivalent_symm {a b : Rule} (h : Equivalent a b) : Equivalent b a := by
  rcases exists_numbers [a, b] with ⟨table, numbers, hsound, hnumbers⟩
  rw [numbersIn?_eq_some_iff] at hnumbers
  match numbers, hnumbers with
  | [m, n], .cons ha (.cons hb .nil) =>
      have hequal := (number_eq_iff hsound a b m n ha hb).mpr h
      exact (number_eq_iff hsound b a n m hb ha).mp hequal.symm

theorem equivalent_trans {a b c : Rule} (h : Equivalent a b) (hlater : Equivalent b c) :
    Equivalent a c := by
  rcases exists_numbers [a, b, c] with ⟨table, numbers, hsound, hnumbers⟩
  rw [numbersIn?_eq_some_iff] at hnumbers
  match numbers, hnumbers with
  | [m, n, o], .cons ha (.cons hb (.cons hc .nil)) =>
      have hfirst := (number_eq_iff hsound a b m n ha hb).mpr h
      have hsecond := (number_eq_iff hsound b c n o hb hc).mpr hlater
      exact (number_eq_iff hsound a c m o ha hc).mp (hfirst.trans hsecond)

instance : Std.Refl Equivalent := ⟨equivalent_refl⟩

theorem pairwiseEquivalent_iff {as bs : List Rule} :
    PairwiseEquivalent as bs ↔ List.Forall₂ Equivalent as bs := by
  constructor
  · intro h
    induction as generalizing bs with
    | nil =>
        cases h
        exact List.Forall₂.nil
    | cons a as ih =>
        cases h with
        | cons hfirst hlater =>
            exact List.Forall₂.cons hfirst (ih hlater)
  · intro h
    induction h with
    | nil =>
        exact PairwiseEquivalent.nil
    | cons hfirst _ ih =>
        exact PairwiseEquivalent.cons hfirst ih

theorem equivalent_mk (connective : Connective) {recipients others : List Recipient}
    {parts reordered otherParts : List Rule}
    (hrecipients : (recipients.map Recipient.identity).Perm (others.map Recipient.identity))
    (hreordered : reordered.Perm otherParts) (hpaired : List.Forall₂ Equivalent parts reordered) :
    Equivalent ⟨connective, recipients, parts⟩ ⟨connective, others, otherParts⟩ :=
  Equivalent.node reordered rfl hrecipients hreordered (pairwiseEquivalent_iff.mpr hpaired)

end Rule
end AccessRules
