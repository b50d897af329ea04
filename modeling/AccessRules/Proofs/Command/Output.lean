import AccessRules.Command.Output
import AccessRules.Proofs.Text.Utf8

/-!
# The text of some writes

What some writes write is put together from their texts in order. A write of a line ends
with its line break, and nothing else is added.
-/

namespace AccessRules
namespace Command

@[simp] theorem written_nil : written [] = "" := rfl

@[simp] theorem written_cons (write : Write) (later : List Write) :
    written (write :: later) = write.rendered ++ written later := by
  rw [written, List.map_cons, Text.renderAll_cons]
  rfl

@[simp] theorem written_append (first second : List Write) :
    written (first ++ second) = written first ++ written second := by
  rw [written, List.map_append, Text.renderAll_append]
  rfl

theorem encode_written_cons (write : Write) (later : List Write) :
    Text.encode (written (write :: later)) =
      Text.encode write.rendered ++ Text.encode (written later) := by
  simp

theorem written_single (write : Write) : written [write] = write.rendered := by
  simp

theorem rendered_lineWrite (indent : Nat) (text task : String) :
    (lineWrite indent text task).rendered = "".pushn ' ' indent ++ text ++ "\n" :=
  String.append_assoc.symm

@[simp] theorem rendered_lineWrite_zero (text task : String) :
    (lineWrite 0 text task).rendered = text ++ "\n" := by
  rw [rendered_lineWrite]
  exact congrArg (· ++ "\n") String.empty_append

theorem written_map_lineWrite_zero (line task : α -> String) (items : List α) :
    written (items.map fun item => lineWrite 0 (line item) (task item)) =
      String.join ((items.map line).map fun text => text ++ "\n") := by
  induction items with
  | nil =>
      rfl
  | cons first rest ih =>
      simp [ih]

end Command
end AccessRules
