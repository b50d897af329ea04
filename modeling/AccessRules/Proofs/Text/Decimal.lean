import AccessRules.Text.Decimal

/-!
# What numerals spell

A text spells a number when it is a run of digits, with or without a plus sign in front. It
spells one number at most, and reading finds it just when the bound allows it.
-/

namespace AccessRules
namespace Text

def Spells (text : String) (number : Nat) : Prop :=
  exists digits, (text.toList = digits ∨ text.toList = '+' :: digits) ∧
    digits ≠ [] ∧ (forall c, c ∈ digits -> isDigit c = true) ∧ digitsValue digits = number

theorem digits?_eq_some_iff {chars : List Char} {number : Nat} :
    digits? chars = some number ↔
      chars ≠ [] ∧ (forall c, c ∈ chars -> isDigit c = true) ∧ digitsValue chars = number := by
  rw [digits?, Option.ite_none_right_eq_some, Option.some.injEq, Bool.and_eq_true,
    List.all_eq_true, Bool.not_eq_true', List.isEmpty_eq_false_iff, and_assoc]

theorem dropPlus_of_digits {chars : List Char} (h : forall c, c ∈ chars -> isDigit c = true) :
    dropPlus chars = chars := by
  unfold dropPlus
  split
  · cases h '+' List.mem_cons_self
  · rfl

theorem eq_or_eq_of_dropPlus {chars rest : List Char} (h : dropPlus chars = rest) :
    chars = rest ∨ chars = '+' :: rest := by
  unfold dropPlus at h
  split at h
  · exact Or.inr (congrArg _ h)
  · exact Or.inl h

theorem numeral?_eq_some_iff {bound number : Nat} {text : String} :
    numeral? bound text = some number ↔ Spells text number ∧ number ≤ bound := by
  rw [numeral?, Option.filter_eq_some_iff, digits?_eq_some_iff, decide_eq_true_eq]
  constructor
  · intro h
    rcases h with ⟨⟨hne, hdigits, hvalue⟩, hbound⟩
    exact ⟨⟨_, eq_or_eq_of_dropPlus rfl, hne, hdigits, hvalue⟩, hbound⟩
  · intro h
    rcases h with ⟨⟨digits, htext, hne, hdigits, hvalue⟩, hbound⟩
    have hdrop : dropPlus text.toList = digits := by
      rcases htext with htext | htext
      · rw [htext, dropPlus_of_digits hdigits]
      · rw [htext, dropPlus]
    rw [hdrop]
    exact ⟨⟨hne, hdigits, hvalue⟩, hbound⟩

theorem eq_of_spells {text : String} {number other : Nat} (h : Spells text number)
    (hother : Spells text other) : number = other := by
  have hnumber := numeral?_eq_some_iff.mpr ⟨h, Nat.le_max_left number other⟩
  have hsame := numeral?_eq_some_iff.mpr ⟨hother, Nat.le_max_right number other⟩
  exact Option.some.inj (hnumber.symm.trans hsame)

theorem eq_plus_or_isDigit_of_spells {text : String} {number : Nat} (h : Spells text number)
    {c : Char} (hc : c ∈ text.toList) : c = '+' ∨ isDigit c = true := by
  rcases h with ⟨digits, htext | htext, -, hdigits, -⟩
  · rw [htext] at hc
    exact .inr (hdigits c hc)
  · rw [htext, List.mem_cons] at hc
    exact hc.imp_right (hdigits c)

/-!
## Digits among the characters
-/

theorem isDigit_eq_true_iff {c : Char} : isDigit c = true ↔ '0' ≤ c ∧ c ≤ '9' := by
  rw [isDigit, Bool.and_eq_true, decide_eq_true_eq, decide_eq_true_eq]

theorem isBlank_of_isDigit {c : Char} (h : isDigit c = true) : isBlank c = false := by
  have hfirst : '0'.toNat ≤ c.toNat := (isDigit_eq_true_iff.mp h).1
  have hlast : c.toNat ≤ '9'.toNat := (isDigit_eq_true_iff.mp h).2
  have hzero : '0'.toNat = 48 := rfl
  have hnine : '9'.toNat = 57 := rfl
  simp only [isBlank, blankRanges, List.any_cons, List.any_nil, Bool.or_false,
    Bool.or_eq_false_iff, Bool.and_eq_false_iff, decide_eq_false_iff_not]
  omega

theorem lt_of_isDigit {c : Char} (h : isDigit c = true) : c.toNat < 128 := by
  have hlast : c.toNat ≤ '9'.toNat := (isDigit_eq_true_iff.mp h).2
  have hnine : '9'.toNat = 57 := rfl
  omega

end Text
end AccessRules
