import Mathlib.Data.Nat.Digits.Defs
import AccessRules.Text.Word
import AccessRules.Proofs.Text.Decimal

/-!
# A word holds what a numeral spells, or it is given up

The checks of products and sums let through just those whose exact result fits a word. The value
of a run of digits never falls while the run is read, so a run that is given up spells a number
that is too large for a word.
-/

namespace AccessRules
namespace Text

/-!
## Values of digits
-/

theorem digitOf_lt_ten {c : Char} (h : isDigit c = true) : digitOf c < 10 := by
  have hlast : c.toNat ≤ '9'.toNat := (isDigit_eq_true_iff.mp h).2
  have hrange : '9'.toNat = '0'.toNat + 9 := rfl
  rw [digitOf]
  omega

/-- The value of a run of digits behind digits that have a value. -/
def valueFrom (start : Nat) (digits : List Char) : Nat :=
  digits.foldl (fun value c => value * 10 + digitOf c) start

@[simp] theorem valueFrom_cons (start : Nat) (c : Char) (digits : List Char) :
    valueFrom start (c :: digits) = valueFrom (start * 10 + digitOf c) digits := by
  rw [valueFrom, valueFrom, List.foldl_cons]

theorem digitsValue_eq_valueFrom (digits : List Char) :
    digitsValue digits = valueFrom 0 digits := rfl

theorem le_valueFrom (start : Nat) (digits : List Char) : start ≤ valueFrom start digits := by
  induction digits generalizing start with
  | nil =>
      exact Nat.le_refl start
  | cons c digits ih =>
      have hrest := ih (start * 10 + digitOf c)
      rw [valueFrom_cons]
      omega

theorem digitsValue_eq_ofDigits (digits : List Char) :
    digitsValue digits = Nat.ofDigits 10 (digits.reverse.map digitOf) := by
  rw [Nat.ofDigits_eq_foldr, List.foldr_map, List.foldr_reverse, digitsValue]
  congr 1
  funext value c
  rw [Nat.mul_comm, Nat.add_comm]
  rfl

/-!
## Checked steps
-/

theorem exists_toNat_eq {number : Nat} (h : number < 2 ^ 64) :
    exists word : UInt64, word.toNat = number :=
  ⟨UInt64.ofNat number, UInt64.toNat_ofNat_of_lt h⟩

theorem tenfold?_eq_some_iff {word next : UInt64} :
    tenfold? word = some next ↔ next.toNat = word.toNat * 10 := by
  have hnext := next.toNat_lt
  have hten : UInt64.toNat 10 = 10 := rfl
  have hbound : (largestWord / 10).toNat = 1844674407370955161 := by
    decide
  rw [tenfold?, Option.ite_none_right_eq_some, Option.some.injEq, UInt64.le_iff_toNat_le, hbound,
    <- UInt64.toNat_inj, UInt64.toNat_mul, hten]
  omega

theorem sum?_eq_some_iff {word other next : UInt64} :
    sum? word other = some next ↔ next.toNat = word.toNat + other.toNat := by
  have hword := word.toNat_lt
  have hother := other.toNat_lt
  have hnext := next.toNat_lt
  rw [sum?, Option.ite_none_right_eq_some, Option.some.injEq, UInt64.le_iff_toNat_le,
    <- UInt64.toNat_inj, UInt64.toNat_add]
  omega

theorem toNat_toUInt64_digitOf {c : Char} (h : isDigit c = true) :
    (digitOf c).toUInt64.toNat = digitOf c := by
  have hdigit := digitOf_lt_ten h
  exact Nat.mod_eq_of_lt (by omega)

theorem takeDigit?_eq_some_iff {word next : UInt64} {c : Char} :
    takeDigit? word c = some next ↔
      isDigit c = true ∧ next.toNat = word.toNat * 10 + digitOf c := by
  rw [takeDigit?, Option.ite_none_right_eq_some]
  apply and_congr_right
  intro hdigit
  rw [Option.bind_eq_some_iff]
  simp only [tenfold?_eq_some_iff, sum?_eq_some_iff, toNat_toUInt64_digitOf hdigit]
  constructor
  · rintro ⟨tenfold, htenfold, hnext⟩
    rw [hnext, htenfold]
  · intro hnext
    have hfits := next.toNat_lt
    obtain ⟨tenfold, htenfold⟩ : exists tenfold : UInt64, tenfold.toNat = word.toNat * 10 :=
      exists_toNat_eq (by omega)
    exact ⟨tenfold, htenfold, by rw [hnext, htenfold]⟩

/-- A run of checked steps arrives at a word just when the word has the exact value. -/
theorem foldlM_takeDigit?_eq_some_iff {digits : List Char} {word last : UInt64} :
    digits.foldlM takeDigit? word = some last ↔
      (forall c, c ∈ digits -> isDigit c = true) ∧
        last.toNat = valueFrom word.toNat digits := by
  induction digits generalizing word with
  | nil =>
      rw [List.foldlM_nil, valueFrom, List.foldl_nil, UInt64.toNat_inj, eq_comm (a := last)]
      exact ⟨fun h => ⟨List.forall_mem_nil _, Option.some.inj h⟩, fun h => congrArg some h.2⟩
  | cons c digits ih =>
      rw [List.foldlM_cons, List.forall_mem_cons, valueFrom_cons, Option.bind_eq_bind,
        Option.bind_eq_some_iff]
      simp only [takeDigit?_eq_some_iff, ih]
      constructor
      · rintro ⟨next, ⟨hdigit, hnext⟩, hdigits, hlast⟩
        rw [hnext] at hlast
        exact ⟨⟨hdigit, hdigits⟩, hlast⟩
      · rintro ⟨⟨hdigit, hdigits⟩, hlast⟩
        have hgrows := le_valueFrom (word.toNat * 10 + digitOf c) digits
        have hfits := last.toNat_lt
        obtain ⟨next, hnext⟩ : exists next : UInt64, next.toNat = word.toNat * 10 + digitOf c :=
          exists_toNat_eq (by omega)
        exact ⟨next, ⟨hdigit, hnext⟩, hdigits, by rw [hlast, hnext]⟩

/-!
## Numerals
-/

theorem wordNumeral?_eq_some_iff {text : String} {word : UInt64} :
    wordNumeral? text = some word ↔ numeral? (UInt64.size - 1) text = some word.toNat := by
  have hbound : word.toNat ≤ UInt64.size - 1 := Nat.le_sub_one_of_lt word.toNat_lt
  rw [numeral?, Option.filter_eq_some_iff, digits?_eq_some_iff, decide_eq_true_eq,
    and_iff_left hbound, digitsValue_eq_valueFrom, wordNumeral?, Option.ite_none_left_eq_some,
    List.isEmpty_iff, foldlM_takeDigit?_eq_some_iff, eq_comm (a := word.toNat)]
  exact Iff.rfl

end Text
end AccessRules
