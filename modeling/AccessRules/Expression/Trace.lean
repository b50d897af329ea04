import AccessRules.Expression.Reading
import AccessRules.Log

/-!
# The log of a reading

Every recipient token is recorded with its position, faulty words are counted in one warning, and
a reading that succeeds ends with a summary.
-/

namespace AccessRules
namespace Expression

def tokenSource : String := "acl_expr::parser::lexer"

def readingSource : String := "acl_expr::parser"

def recipientRecord (entry : String × Nat) (recipient : Recipient) : LogRecord :=
  ⟨.trace, tokenSource,
    "token " ++ toString entry.2 ++ " `" ++ entry.1 ++ "` is a " ++
      recipient.kind.name ++ " recipient", []⟩

def warningRecord (faultCount : Nat) : LogRecord :=
  ⟨.warn, tokenSource, "rejected " ++ toString faultCount ++ " invalid ACL token(s)", []⟩

def summaryRecord (wordCount : Nat) (rule : Rule) : LogRecord :=
  ⟨.debug, readingSource,
    "parsed " ++ toString wordCount ++ " ACL token(s) into " ++
      rule.connective.keyword ++ " node with " ++ toString rule.operandCount ++
      " operand(s)", []⟩

def tokenRecord? (entry : String × Nat) : Option LogRecord :=
  match Token.read entry.1 with
  | .ok (.recipient recipient) => some (recipientRecord entry recipient)
  | _ => none

def tokenRecords (words : List String) : List LogRecord :=
  words.zipIdx.filterMap tokenRecord?

def closingRecords (wordCount : Nat) : Except Fault Rule -> List LogRecord
  | .ok rule => [summaryRecord wordCount rule]
  | .error (.badTokens faults) => [warningRecord faults.length]
  | .error _ => []

def records (text : String) (result : Except Fault Rule) : List LogRecord :=
  let words := Text.words text
  tokenRecords words ++ closingRecords words.length result

def trace (limit : Nat) (text : String) : List LogRecord :=
  records text (parse limit text)

/-!
## Reading and recording at once

A keyword joins the tokens before anything is recorded; a recipient is recorded and then joins
them.
-/

/-- What some words have been found to be, and what has been recorded of them. -/
structure Sifted where
  tokens : List Token
  faults : List TokenFault
  log : List LogRecord

def Sifted.take (sifted : Sifted) (entry : String × Nat) : Sifted :=
  match Connective.ofKeyword? entry.1 with
  | some keyword => { sifted with tokens := sifted.tokens ++ [.connective keyword] }
  | none =>
      match Recipient.read entry.1 with
      | .ok recipient =>
          { sifted with
            tokens := sifted.tokens ++ [.recipient recipient]
            log := sifted.log ++ [recipientRecord entry recipient] }
      | .error objection =>
          { sifted with faults := sifted.faults ++ [⟨entry.1, entry.2, objection⟩] }

def sift (words : List String) : Sifted :=
  words.zipIdx.foldl Sifted.take ⟨[], [], []⟩

def tokensWithLog (words : List String) : Except Fault (List Token) × List LogRecord :=
  let sifted := sift words
  if sifted.faults.isEmpty then
    if sifted.tokens.isEmpty then (.error .noTokens, sifted.log)
    else (.ok sifted.tokens, sifted.log)
  else (.error (.badTokens sifted.faults), sifted.log ++ [warningRecord sifted.faults.length])

def parseWithLog (limit : Nat) (text : String) : Except Fault Rule × List LogRecord :=
  match tokensWithLog (Text.words text) with
  | (.error fault, log) => (.error fault, log)
  | (.ok tokens, log) =>
      match (run limit 0 [] tokens).bind finish with
      | .error fault => (.error fault, log)
      | .ok rule => (.ok rule, log ++ [summaryRecord tokens.length rule])

end Expression
end AccessRules
