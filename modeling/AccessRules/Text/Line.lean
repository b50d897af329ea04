/-!
# Indented text

The spaces in front of a text are kept as a number until the text is needed.
-/

namespace AccessRules
namespace Text

structure Line where
  indent : Nat
  text : String
deriving DecidableEq, Repr

namespace Line

def rendered (line : Line) : String :=
  "".pushn ' ' line.indent ++ line.text

def size (line : Line) : Nat :=
  line.indent + line.text.utf8ByteSize

end Line

def renderAll (lines : List Line) : String :=
  String.join (lines.map Line.rendered)

end Text
end AccessRules
