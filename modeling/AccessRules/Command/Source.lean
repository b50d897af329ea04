import AccessRules.Command.Run

/-!
# Sources of an expression

A run takes its expression from the operands of its command line, or from standard input when
there is none.
-/

namespace AccessRules
namespace Command

inductive Source where
  | operands (first : String) (later : List String)
  | input (text : String)
deriving DecidableEq, Repr

namespace Source

def text : Source -> String
  | operands first later => " ".intercalate (first :: later)
  | input text => text

def operandList : Source -> List String
  | operands first later => first :: later
  | input _ => []

def inputBytes (bytes : ByteArray) : Source -> ByteArray
  | operands _ _ => bytes
  | input text => Text.encode text

def run (source : Source) (invocation : Invocation) (settings : Settings)
    (around : Surroundings) : Execution :=
  Command.run { invocation with words := source.operandList } settings
    { around with input := source.inputBytes around.input }

end Source

end Command
end AccessRules
