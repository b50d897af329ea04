import AccessRules.Json.Reader

/-!
# Quoted text read back

An escape is read as the character that it was written for, whatever comes behind it. So a
string is read as the text that was quoted, and the reading goes on right behind its last
quote.
-/

namespace AccessRules
namespace Json

/-!
## The three forms of a character

A character is escaped by a letter, by four hexadecimal digits or not at all.
-/

theorem escape_cases (c : Char) :
    (exists letter, escape c = ['\\', letter] ∧ letter ≠ 'u' ∧ shortEscape? letter = some c) ∨
      (c.toNat < 0x20 ∧ escape c = ['\\', 'u', '0', '0'] ++ Text.hexPair c.toNat) ∨
        (c ≠ '"' ∧ c ≠ '\\' ∧ 0x20 ≤ c.toNat ∧ escape c = [c]) := by
  unfold escape
  split
  · exact Or.inl ⟨'"', rfl, by decide, rfl⟩
  · exact Or.inl ⟨'\\', rfl, by decide, rfl⟩
  · exact Or.inl ⟨'b', rfl, by decide, rfl⟩
  · exact Or.inl ⟨'f', rfl, by decide, rfl⟩
  · exact Or.inl ⟨'n', rfl, by decide, rfl⟩
  · exact Or.inl ⟨'r', rfl, by decide, rfl⟩
  · exact Or.inl ⟨'t', rfl, by decide, rfl⟩
  · rename_i hquote hbackslash _ _ _ _ _
    by_cases hcontrol : c.toNat < 0x20
    · exact Or.inr (Or.inl ⟨hcontrol, if_pos hcontrol⟩)
    · exact Or.inr (Or.inr ⟨hquote, hbackslash, Nat.le_of_not_lt hcontrol, if_neg hcontrol⟩)

theorem hexValue?_hexDigit :
    forall value : Fin 16, hexValue? (Text.hexDigit value) = some value.val := by
  decide

theorem hexDigit_ne_quote : forall value : Fin 16, Text.hexDigit value ≠ '"' := by
  decide

theorem hexDigit_ne_backslash : forall value : Fin 16, Text.hexDigit value ≠ '\\' := by
  decide

/-- The two digits of a control character. -/
theorem exists_hexPair {code : Nat} (h : code < 0x20) :
    exists high low : Fin 16,
      Text.hexPair code = [Text.hexDigit high, Text.hexDigit low] ∧
        high.val * 16 + low.val = code := by
  have hhigh : code / 16 < 16 := Nat.div_lt_of_lt_mul (Nat.lt_trans h (by decide))
  have hlow : code % 16 < 16 := Nat.mod_lt code (by decide)
  exact ⟨⟨code / 16, hhigh⟩, ⟨code % 16, hlow⟩, rfl, Nat.div_add_mod' code 16⟩

/-!
## Reading a string
-/

section Reading

variable {chars : List Char} {read : List Symbol}

theorem readSymbols_cons {reading next : Reading} {c : Char} (h : reading.next? c = some next)
    (rest : List Char) : readSymbols reading (c :: rest) = readSymbols next rest := by
  rw [readSymbols, h]

theorem next?_inside {c : Char} (hquote : c ≠ '"') (hbackslash : c ≠ '\\')
    (hcode : 0x20 ≤ c.toNat) :
    Reading.next? ⟨.inside chars, read⟩ c = some ⟨.inside (c :: chars), read⟩ := by
  have hplace : (Place.inside chars).next? c = some (.inside (c :: chars)) := by
    rw [Place.next?, if_neg hbackslash, if_neg (Nat.not_lt_of_le hcode)]
  unfold Reading.next?
  split
  · contradiction
  · split
    · exact absurd rfl hquote
    · rw [hplace]
      rfl

theorem next?_escaped {letter c : Char} (hletter : letter ≠ 'u')
    (hshort : shortEscape? letter = some c) :
    Reading.next? ⟨.escaped chars, read⟩ letter = some ⟨.inside (c :: chars), read⟩ := by
  have hplace : (Place.escaped chars).next? letter = some (.inside (c :: chars)) := by
    rw [Place.next?, if_neg hletter, hshort]
    rfl
  show ((Place.escaped chars).next? letter).map _ = _
  rw [hplace]
  rfl

theorem next?_digits {count value digit : Nat} {c : Char} (hdigit : hexValue? c = some digit) :
    Reading.next? ⟨.digits chars none count value, read⟩ c =
      (if count = 3 then afterUnit chars none (value * 16 + digit)
        else some (.digits chars none (count + 1) (value * 16 + digit))).map
          fun place => ⟨place, read⟩ := by
  show ((Place.digits chars none count value).next? c).map _ = _
  rw [Place.next?, hdigit]

theorem afterUnit_of_lt {code : Nat} (h : code < 0x20) :
    afterUnit chars none code = some (.inside (Char.ofNat code :: chars)) := by
  have hleading : isLeadingSurrogate code = false := by
    rw [isLeadingSurrogate, Bool.and_eq_false_iff]
    exact Or.inl (decide_eq_false (Nat.not_le_of_lt (Nat.lt_trans h (by decide))))
  have htrailing : isTrailingSurrogate code = false := by
    rw [isTrailingSurrogate, Bool.and_eq_false_iff]
    exact Or.inl (decide_eq_false (Nat.not_le_of_lt (Nat.lt_trans h (by decide))))
  rw [afterUnit, hleading, htrailing]
  rfl

/-- The character behind the four digits of a control character. -/
theorem readSymbols_digits {c : Char} (h : c.toNat < 0x20) (rest : List Char) :
    readSymbols ⟨.digits chars none 0 0, read⟩ ('0' :: '0' :: Text.hexPair c.toNat ++ rest) =
      readSymbols ⟨.inside (c :: chars), read⟩ rest := by
  rcases exists_hexPair h with ⟨high, low, hpair, hcode⟩
  have hunit : afterUnit chars none ((0 * 16 + high.val) * 16 + low.val) =
      some (.inside (c :: chars)) := by
    rw [Nat.zero_mul, Nat.zero_add, hcode, afterUnit_of_lt h, Char.ofNat_toNat]
  have hhigh : Reading.next? ⟨.digits chars none 2 0, read⟩ (Text.hexDigit high) =
      some ⟨.digits chars none 3 (0 * 16 + high.val), read⟩ := by
    rw [next?_digits (hexValue?_hexDigit high)]
    rfl
  have hlow : Reading.next? ⟨.digits chars none 3 (0 * 16 + high.val), read⟩
      (Text.hexDigit low) = some ⟨.inside (c :: chars), read⟩ := by
    rw [next?_digits (hexValue?_hexDigit low), if_pos rfl, hunit]
    rfl
  rw [hpair]
  show readSymbols ⟨.digits chars none 2 0, read⟩
    (Text.hexDigit high :: Text.hexDigit low :: rest) = _
  rw [readSymbols_cons hhigh, readSymbols_cons hlow]

theorem readSymbols_escape (c : Char) (rest : List Char) :
    readSymbols ⟨.inside chars, read⟩ (escape c ++ rest) =
      readSymbols ⟨.inside (c :: chars), read⟩ rest := by
  rcases escape_cases c with ⟨letter, hescape, hletter, hshort⟩ | ⟨hcontrol, hescape⟩ |
    ⟨hquote, hbackslash, hcode, hescape⟩
  · rw [hescape]
    show readSymbols ⟨.escaped chars, read⟩ (letter :: rest) = _
    rw [readSymbols_cons (next?_escaped hletter hshort)]
  · rw [hescape]
    exact readSymbols_digits hcontrol rest
  · rw [hescape]
    exact readSymbols_cons (next?_inside hquote hbackslash hcode) rest

theorem readSymbols_escapes (text rest : List Char) :
    readSymbols ⟨.inside chars, read⟩ (text.flatMap escape ++ rest) =
      readSymbols ⟨.inside (text.reverse ++ chars), read⟩ rest := by
  induction text generalizing chars with
  | nil =>
      rfl
  | cons c later ih =>
      rw [List.flatMap_cons, List.append_assoc, readSymbols_escape, ih, List.reverse_cons,
        List.append_assoc]
      rfl

theorem readSymbols_quote (text : String) (rest : List Char) :
    readSymbols ⟨.between, read⟩ ((quote text).toList ++ rest) =
      readSymbols ⟨.between, .text text :: read⟩ rest := by
  have hopened : readSymbols ⟨.between, read⟩ ((quote text).toList ++ rest) =
      readSymbols ⟨.inside [], read⟩ (text.toList.flatMap escape ++ '"' :: rest) := by
    rw [quote, String.toList_ofList, quoteChars, List.cons_append, List.append_assoc]
    rfl
  have hclosed : readSymbols ⟨.inside text.toList.reverse, read⟩ ('"' :: rest) =
      readSymbols ⟨.between, .text (String.ofList text.toList.reverse.reverse) :: read⟩ rest := rfl
  rw [hopened, readSymbols_escapes, List.append_nil, hclosed, List.reverse_reverse,
    String.ofList_toList]

end Reading

end Json
end AccessRules
