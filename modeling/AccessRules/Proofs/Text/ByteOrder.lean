import Mathlib.Algebra.Ring.Nat
import AccessRules.Text.Utf8

/-!
# Texts are ordered as their bytes

A code point is packed into a leading byte and continuation bytes of six bits each. The mark in
the leading byte grows with the number of bytes, so the first byte in which two encodings differ
decides like the code points themselves. Texts are therefore ordered by their bytes as they are by
their characters.
-/

namespace AccessRules
namespace Text

/-!
## Packed numbers
-/

/-- A leading byte with a mark and the highest bits of a number, and the given number of
continuation bytes. -/
def packed (mark : Nat) : Nat -> Nat -> List UInt8
  | 0, number => [UInt8.ofNat (mark + number)]
  | count + 1, number => packed mark count (number / 64) ++ [UInt8.ofNat (0x80 + number % 64)]

theorem cons_ofNat_lt_cons_ofNat {a b : Nat} (h : a < b) (hb : b < 256)
    (later otherLater : List UInt8) : UInt8.ofNat a :: later < UInt8.ofNat b :: otherLater := by
  apply List.cons_lt_cons_iff.mpr
  left
  rw [UInt8.lt_iff_toNat_lt, UInt8.toNat_ofNat_of_lt' (Nat.lt_trans h hb),
    UInt8.toNat_ofNat_of_lt' hb]
  exact h

theorem packed_append_lt {mark count number other : Nat} (h : number < other)
    (hother : mark + other / 64 ^ count < 256) (later otherLater : List UInt8) :
    packed mark count number ++ later < packed mark count other ++ otherLater := by
  induction count generalizing number other later otherLater with
  | zero =>
      rw [Nat.pow_zero, Nat.div_one] at hother
      exact cons_ofNat_lt_cons_ofNat (Nat.add_lt_add_left h mark) hother later otherLater
  | succ count ih =>
      rw [packed, packed, List.append_assoc, List.append_assoc]
      rcases Nat.lt_or_eq_of_le (Nat.div_le_div_right (c := 64) (Nat.le_of_lt h)) with hhigh | hhigh
      · rw [Nat.pow_succ', <- Nat.div_div_eq_div_mul] at hother
        exact ih hhigh hother _ _
      · have hlow : 0x80 + number % 64 < 0x80 + other % 64 := by
          omega
        rw [hhigh]
        apply List.append_left_lt
        exact cons_ofNat_lt_cons_ofNat hlow (by omega) later otherLater

theorem exists_packed_eq_cons (mark count number : Nat) :
    exists later, packed mark count number = UInt8.ofNat (mark + number / 64 ^ count) :: later := by
  induction count generalizing number with
  | zero =>
      exact ⟨[], by rw [Nat.pow_zero, Nat.div_one, packed]⟩
  | succ count ih =>
      rcases ih (number / 64) with ⟨later, hlater⟩
      rw [packed, hlater, Nat.pow_succ', <- Nat.div_div_eq_div_mul]
      exact ⟨_, List.cons_append⟩

theorem packed_append_lt_of_leading {mark count number otherMark otherCount other : Nat}
    (h : mark + number / 64 ^ count < otherMark + other / 64 ^ otherCount)
    (hother : otherMark + other / 64 ^ otherCount < 256) (later otherLater : List UInt8) :
    packed mark count number ++ later < packed otherMark otherCount other ++ otherLater := by
  rcases exists_packed_eq_cons mark count number with ⟨bytes, hbytes⟩
  rcases exists_packed_eq_cons otherMark otherCount other with ⟨otherBytes, hotherBytes⟩
  rw [hbytes, hotherBytes]
  exact cons_ofNat_lt_cons_ofNat h hother _ _

/-!
## Code points
-/

/-- The mark of a code point and how many continuation bytes follow the leading one. -/
inductive PackedBy (number : Nat) : Nat -> Nat -> Prop where
  | alone (hle : number ≤ 0x7f) : PackedBy number 0x00 0
  | inTwo (hlt : 0x7f < number) (hle : number ≤ 0x7ff) : PackedBy number 0xc0 1
  | inThree (hlt : 0x7ff < number) (hle : number ≤ 0xffff) : PackedBy number 0xe0 2
  | inFour (hlt : 0xffff < number) (hle : number ≤ 0x10ffff) : PackedBy number 0xf0 3

theorem PackedBy.leading_lt {number mark count : Nat} (h : PackedBy number mark count) :
    mark + number / 64 ^ count < 256 := by
  cases h <;> omega

theorem PackedBy.same_or_leading_lt {number other mark count otherMark otherCount : Nat}
    (h : PackedBy number mark count) (hother : PackedBy other otherMark otherCount)
    (hlt : number < other) :
    (mark = otherMark ∧ count = otherCount) ∨
      mark + number / 64 ^ count < otherMark + other / 64 ^ otherCount := by
  cases h <;> cases hother <;> omega

theorem toNat_le_of_isValidChar (c : Char) : c.val.toNat ≤ 0x10ffff := by
  rcases c.valid with h | h <;> omega

theorem exists_packedBy (c : Char) :
    exists mark count,
      PackedBy c.val.toNat mark count ∧
        String.utf8EncodeChar c = packed mark count c.val.toNat := by
  have hle := toNat_le_of_isValidChar c
  unfold String.utf8EncodeChar
  generalize c.val.toNat = number at hle
  simp only
  split
  · rename_i hone
    refine ⟨_, _, .alone hone, ?_⟩
    simp only [packed, Nat.zero_add]
  split
  · rename_i hone htwo
    refine ⟨_, _, .inTwo (Nat.lt_of_not_le hone) htwo, ?_⟩
    have hhigh : number / 64 % 0x20 = number / 64 := by omega
    simp only [packed, List.cons_append, List.nil_append, hhigh, Nat.add_comm]
  split
  · rename_i htwo hthree
    refine ⟨_, _, .inThree (Nat.lt_of_not_le htwo) hthree, ?_⟩
    have hhigh : number / 4096 % 0x10 = number / 64 / 64 := by omega
    simp only [packed, List.cons_append, List.nil_append, hhigh, Nat.add_comm]
  · rename_i hthree
    refine ⟨_, _, .inFour (Nat.lt_of_not_le hthree) hle, ?_⟩
    have hhigh : number / 262144 % 0x08 = number / 64 / 64 / 64 := by omega
    have hmiddle : number / 4096 = number / 64 / 64 := by omega
    simp only [packed, List.cons_append, List.nil_append, hhigh, hmiddle, Nat.add_comm]

theorem utf8EncodeChar_append_lt {c d : Char} (h : c < d) (later otherLater : List UInt8) :
    String.utf8EncodeChar c ++ later < String.utf8EncodeChar d ++ otherLater := by
  rcases exists_packedBy c with ⟨mark, count, hc, hbytes⟩
  rcases exists_packedBy d with ⟨otherMark, otherCount, hd, hotherBytes⟩
  rw [hbytes, hotherBytes]
  rcases hc.same_or_leading_lt hd h with ⟨rfl, rfl⟩ | hleading
  · exact packed_append_lt h hd.leading_lt later otherLater
  · exact packed_append_lt_of_leading hleading hd.leading_lt later otherLater

/-!
## Texts
-/

/-- The bytes that encode a text. -/
def bytes (text : String) : List UInt8 :=
  (encode text).data.toList

theorem bytes_eq_flatMap (text : String) :
    bytes text = text.toList.flatMap String.utf8EncodeChar := by
  have hpacked : bytes (String.ofList text.toList) = text.toList.flatMap String.utf8EncodeChar :=
    List.toList_data_toByteArray
  rw [String.ofList_toList] at hpacked
  exact hpacked

theorem flatMap_utf8EncodeChar_lt {chars others : List Char} (h : chars < others) :
    chars.flatMap String.utf8EncodeChar < others.flatMap String.utf8EncodeChar := by
  induction chars generalizing others with
  | nil =>
      cases others with
      | nil =>
          exact absurd h (List.lt_irrefl [])
      | cons d others =>
          rw [List.flatMap_nil, List.flatMap_cons]
          cases hbytes : String.utf8EncodeChar d with
          | nil =>
              exact absurd hbytes String.utf8EncodeChar_ne_nil
          | cons byte later =>
              exact List.nil_lt_cons _ _
  | cons c rest ih =>
      cases others with
      | nil =>
          exact absurd h (List.not_lt_nil _)
      | cons d others =>
          rw [List.flatMap_cons, List.flatMap_cons]
          rcases List.cons_lt_cons_iff.mp h with hlt | ⟨rfl, hrest⟩
          · exact utf8EncodeChar_append_lt hlt _ _
          · exact List.append_left_lt (ih hrest)

theorem bytes_lt_of_lt {text other : String} (h : text < other) : bytes text < bytes other := by
  rw [bytes_eq_flatMap, bytes_eq_flatMap]
  exact flatMap_utf8EncodeChar_lt h

theorem lt_iff_bytes_lt (text other : String) : text < other ↔ bytes text < bytes other := by
  constructor
  · exact bytes_lt_of_lt
  · intro h
    rcases Std.lt_trichotomy text other with hlt | rfl | hgt
    · exact hlt
    · exact absurd h (List.lt_irrefl _)
    · exact absurd (bytes_lt_of_lt hgt) (List.lt_asymm h)

theorem compare_eq_lt_iff_bytes_lt (text other : String) :
    compare text other = .lt ↔ bytes text < bytes other := by
  rw [<- lt_iff_bytes_lt]
  exact compareOfLessAndEq_eq_lt

end Text
end AccessRules
