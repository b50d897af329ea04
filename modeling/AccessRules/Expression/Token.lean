import AccessRules.Connective
import AccessRules.Recipient.Token
import AccessRules.Text.Words

/-!
# Tokens of an expression

A word is the keyword of a connective or the token of a recipient. No recipient is written like a
keyword.
-/

namespace AccessRules
namespace Expression

inductive Token where
  | connective (connective : Connective)
  | recipient (recipient : Recipient)
deriving DecidableEq

structure TokenFault where
  word : String
  position : Nat
  objection : Objection
deriving DecidableEq, Repr

def TokenFault.message (fault : TokenFault) : String :=
  fault.objection.message ++ " `" ++ fault.word ++ "` at token " ++
    toString fault.position ++ " (zero-based)"

namespace Token

def read (word : String) : Except Objection Token :=
  match Connective.ofKeyword? word with
  | some keyword => .ok (.connective keyword)
  | none => (Recipient.read word).map .recipient

def read? (word : String) : Option Token :=
  (read word).toOption

def word : Token -> String
  | connective c => c.keyword
  | recipient r => r.token

end Token

def faultOf? (entry : String × Nat) : Option TokenFault :=
  match Token.read entry.1 with
  | .ok _ => none
  | .error objection => some ⟨entry.1, entry.2, objection⟩

def tokenFaults (words : List String) : List TokenFault :=
  words.zipIdx.filterMap faultOf?

end Expression
end AccessRules
