import AccessRules.Text.Line
import AccessRules.Text.Utf8

/-!
# Texts and lines as bytes

Encoding goes along with appending, and every encoded text is decoded again. The size
that a line tells is the number of bytes that it takes.
-/

namespace AccessRules
namespace Text

@[simp] theorem encode_append (left right : String) :
    encode (left ++ right) = encode left ++ encode right := rfl

@[simp] theorem decode?_encode (text : String) : decode? (encode text) = some text := by
  rw [decode?, String.fromUTF8?, dif_pos (show (encode text).IsValidUTF8 from text.isValidUTF8)]
  rfl

theorem utf8ByteSize_pushn_space (text : String) (count : Nat) :
    (text.pushn ' ' count).utf8ByteSize = text.utf8ByteSize + count := by
  rw [String.pushn_eq_repeat_push]
  induction count with
  | zero =>
      rfl
  | succ count ih =>
      rw [Nat.repeat, String.utf8ByteSize_push, ih]
      rfl

theorem Line.size_eq (line : Line) : line.size = (encode line.rendered).size := by
  have hbytes : (encode line.rendered).size = line.rendered.utf8ByteSize := rfl
  rw [hbytes, rendered, String.utf8ByteSize_append, utf8ByteSize_pushn_space, size]
  simp

@[simp] theorem renderAll_nil : renderAll [] = "" := rfl

@[simp] theorem renderAll_cons (line : Line) (later : List Line) :
    renderAll (line :: later) = line.rendered ++ renderAll later := by
  rw [renderAll, List.map_cons, String.join_cons]
  rfl

@[simp] theorem renderAll_append (first second : List Line) :
    renderAll (first ++ second) = renderAll first ++ renderAll second := by
  rw [renderAll, List.map_append, String.join_append]
  rfl

end Text
end AccessRules
