import AccessRules.Proofs.Command.Settings
import AccessRules.Proofs.Text.Word

/-!
# Limits are the positive numerals of a word

A text is read as a limit when, blanks around it apart, it is a run of digits whose value is
neither zero nor too large for a word. Every other text is refused as it was given.
-/

namespace AccessRules
namespace Command

/-!
## Refusals
-/

/-- What makes a text, trimmed, no limit. -/
inductive Unfit (core : String) : Prop where
  | zero (h : Text.Spells core 0) : Unfit core
  | large {number : Nat} (h : Text.Spells core number) (hlarge : 2 ^ 64 ≤ number) : Unfit core
  | minus (h : '-' ∈ core.toList) : Unfit core
  | blank {c : Char} (hc : c ∈ core.toList) (h : Text.isBlank c = true) : Unfit core
  | foreign {c : Char} (hc : c ∈ core.toList) (h : 128 ≤ c.toNat) : Unfit core

theorem not_namesLimit_of_unfit {given core : String} (hcore : Text.TrimsTo given core)
    (h : Unfit core) (limit : Nat) : ¬ NamesLimit given limit := by
  rintro ⟨other, hother, hspells, hpositive, hfits⟩
  obtain rfl : core = other :=
    (Text.trim_eq_iff.mpr hcore).symm.trans (Text.trim_eq_iff.mpr hother)
  cases h with
  | zero hzero =>
      rw [Text.eq_of_spells hspells hzero] at hpositive
      exact Nat.not_succ_le_zero 0 hpositive
  | large hnumber hlarge =>
      rw [Text.eq_of_spells hspells hnumber] at hfits
      exact Nat.not_lt_of_le hlarge hfits
  | minus hminus =>
      rcases Text.eq_plus_or_isDigit_of_spells hspells hminus with hplus | hdigit
      · exact absurd hplus (by decide)
      · exact absurd hdigit (by decide)
  | blank hc hblank =>
      rcases Text.eq_plus_or_isDigit_of_spells hspells hc with rfl | hdigit
      · exact absurd hblank (by decide)
      · exact absurd hblank (by rw [Text.isBlank_of_isDigit hdigit]; exact Bool.false_ne_true)
  | foreign hc hforeign =>
      rcases Text.eq_plus_or_isDigit_of_spells hspells hc with rfl | hdigit
      · exact absurd hforeign (by decide)
      · exact absurd hforeign (Nat.not_le_of_lt (Text.lt_of_isDigit hdigit))

theorem readLimit_eq_ok_or_eq_error (given : String) :
    (exists limit, readLimit given = .ok limit) ∨ readLimit given = .error (.badLimit given) := by
  cases hread : readLimit given with
  | ok limit =>
      exact .inl ⟨limit, rfl⟩
  | error fault =>
      rw [accepts_readLimit.eq_refusal hread]
      exact .inr rfl

theorem readLimit_of_unfit {given core : String} (hcore : Text.TrimsTo given core)
    (h : Unfit core) : readLimit given = .error (.badLimit given) := by
  apply (readLimit_eq_ok_or_eq_error given).resolve_left
  rintro ⟨limit, hlimit⟩
  exact not_namesLimit_of_unfit hcore h limit (accepts_readLimit.ok_iff.mp hlimit)

/-!
## Limits
-/

theorem namesLimit_iff {given : String} {limit : Nat} :
    NamesLimit given limit ↔
      exists core digits, Text.TrimsTo given core ∧
        (core.toList = digits ∨ core.toList = '+' :: digits) ∧ digits ≠ [] ∧
        (forall c, c ∈ digits -> '0' ≤ c ∧ c ≤ '9') ∧
        Nat.ofDigits 10 (digits.reverse.map Text.digitOf) = limit ∧
        1 ≤ limit ∧ limit ≤ 2 ^ 64 - 1 := by
  have hfits : limit < UInt64.size ↔ limit ≤ 2 ^ 64 - 1 := by
    rw [Nat.le_sub_one_iff_lt (by decide)]
    exact Iff.rfl
  simp only [NamesLimit, Text.Spells, Text.isDigit_eq_true_iff, Text.digitsValue_eq_ofDigits, hfits]
  constructor
  · rintro ⟨core, hcore, ⟨digits, htext, hne, hdigits, hvalue⟩, hpositive, hlargest⟩
    exact ⟨core, digits, hcore, htext, hne, hdigits, hvalue, hpositive, hlargest⟩
  · rintro ⟨core, digits, hcore, htext, hne, hdigits, hvalue, hpositive, hlargest⟩
    exact ⟨core, hcore, ⟨digits, htext, hne, hdigits, hvalue⟩, hpositive, hlargest⟩

theorem readLimit_eq_ok_iff_word {given : String} {word : UInt64} :
    readLimit given = .ok word.toNat ↔
      (Text.wordNumeral? (Text.trim given)).filter (0 < ·) = some word := by
  have hlargest : word.toNat ≤ UInt64.size - 1 := Nat.le_sub_one_of_lt word.toNat_lt
  rw [accepts_readLimit.ok_iff, Option.filter_eq_some_iff, Text.wordNumeral?_eq_some_iff,
    Text.numeral?_eq_some_iff, decide_eq_true_eq, UInt64.lt_iff_toNat_lt, NamesLimit]
  simp only [<- Text.trim_eq_iff, exists_eq_left']
  rw [and_iff_left hlargest, and_iff_left word.toNat_lt]
  exact Iff.rfl

/-- A text is read as a limit exactly when, without the blanks around it, it is a run of one or
more ASCII digits, with or without one plus sign in front, whose decimal value is the limit, which
lies between one and the largest word. Everything else is refused with a message that quotes the
text with its blanks: zero, a value that no word holds, and whatever has a minus sign, a blank or
a character beyond ASCII in it. A reader that has words only, and checks each product and each sum
for overflow, arrives at the same limits. -/
theorem readLimit_reads_positive_numerals (given : String) :
    (forall limit, readLimit given = .ok limit ↔
      exists core digits, Text.TrimsTo given core ∧
        (core.toList = digits ∨ core.toList = '+' :: digits) ∧ digits ≠ [] ∧
        (forall c, c ∈ digits -> '0' ≤ c ∧ c ≤ '9') ∧
        Nat.ofDigits 10 (digits.reverse.map Text.digitOf) = limit ∧
        1 ≤ limit ∧ limit ≤ 2 ^ 64 - 1) ∧
      ((exists limit, readLimit given = .ok limit) ∨
        readLimit given = .error (.badLimit given)) ∧
      (SettingFault.badLimit given).message =
        "invalid configuration: invalid max depth '" ++ given ++
          "', expected a positive integer" ∧
      (forall core, Text.TrimsTo given core -> Unfit core ->
        readLimit given = .error (.badLimit given)) ∧
      (forall word : UInt64, readLimit given = .ok word.toNat ↔
        (Text.wordNumeral? (Text.trim given)).filter (0 < ·) = some word) := by
  refine ⟨fun limit => ?_, readLimit_eq_ok_or_eq_error given, rfl,
    fun core => readLimit_of_unfit, fun word => readLimit_eq_ok_iff_word⟩
  rw [accepts_readLimit.ok_iff, namesLimit_iff]

/-- Blanks of any kind around a numeral and zeros in front of it do not matter, even for the
largest word. One more than that is refused, and so is a numeral with a blank in it. -/
theorem readLimit_reads_positive_numerals_largest :
    readLimit "\u2003+0018446744073709551615\u00a0" = .ok (2 ^ 64 - 1) ∧
      readLimit "18446744073709551616" = .error (.badLimit "18446744073709551616") ∧
      readLimit " 1 0 " = .error (.badLimit " 1 0 ") := by
  have hlargest : Text.TrimsTo "\u2003+0018446744073709551615\u00a0" "+0018446744073709551615" :=
    Text.trim_eq_iff.mp rfl
  have hdigits : forall c, c ∈ "0018446744073709551615".toList -> Text.isDigit c = true :=
    List.all_eq_true.mp rfl
  have hlarge : Text.TrimsTo "18446744073709551616" "18446744073709551616" :=
    Text.trim_eq_iff.mp rfl
  have hspells : Text.Spells "18446744073709551616" (2 ^ 64) :=
    ⟨"18446744073709551616".toList, .inl rfl, by decide, List.all_eq_true.mp rfl, rfl⟩
  have hblank : Text.TrimsTo " 1 0 " "1 0" :=
    Text.trim_eq_iff.mp rfl
  refine ⟨?_, ?_, ?_⟩
  · exact ((readLimit_reads_positive_numerals _).1 _).mpr
      ⟨_, "0018446744073709551615".toList, hlargest, .inr rfl, by decide,
        fun c hc => Text.isDigit_eq_true_iff.mp (hdigits c hc), by decide, by decide, by decide⟩
  · exact (readLimit_reads_positive_numerals _).2.2.2.1 _ hlarge
      (.large hspells (Nat.le_refl _))
  · exact (readLimit_reads_positive_numerals _).2.2.2.1 _ hblank
      (@Unfit.blank "1 0" ' ' (by decide) (by decide))

end Command
end AccessRules
