import AccessRules.Text.Words
import AccessRules.Text.Line
import AccessRules.Text.Hexadecimal
import AccessRules.Text.Decimal
import AccessRules.Text.Utf8
import AccessRules.Recipient.Kind
import AccessRules.Recipient.Basic
import AccessRules.Recipient.Token
import AccessRules.Recipient.Hashing
import AccessRules.Connective
import AccessRules.Rule.Basic
import AccessRules.Rule.Fold
import AccessRules.Rule.Rows
import AccessRules.Rule.Layout
import AccessRules.Rule.Spelling
import AccessRules.Rule.NormalForm
import AccessRules.Rule.Comparison
import AccessRules.Rule.Equivalence
import AccessRules.Rule.Labels
import AccessRules.Rule.Places
import AccessRules.Expression.Token
import AccessRules.Expression.Fault
import AccessRules.Expression.Operand
import AccessRules.Expression.Reading
import AccessRules.Log
import AccessRules.Expression.Trace
import AccessRules.Json.Text
import AccessRules.Json.Document
import AccessRules.Rule.Document
import AccessRules.Command.Settings
import AccessRules.Command.Arguments
import AccessRules.Json.Reader
import AccessRules.Json.NameBook
import AccessRules.Command.Failure
import AccessRules.Command.Output
import AccessRules.Command.Call
import AccessRules.Command.Run
import AccessRules.Command.Report
import AccessRules.Command.Source
import AccessRules.Command.Outline
import AccessRules.Main
import AccessRules.Rule.Meaning
import AccessRules.Rule.Readable
import AccessRules.Expression.Term
import AccessRules.Expression.Evaluation
import AccessRules.Proofs.Text.Words
import AccessRules.Proofs.Text.Lines
import AccessRules.Proofs.Text.Spacing
import AccessRules.Proofs.Text.Trim
import AccessRules.Proofs.Text.Decimal
import AccessRules.Proofs.Text.Utf8
import AccessRules.Proofs.Recipient.Token
import AccessRules.Proofs.Recipient.Objection
import AccessRules.Proofs.Recipient.Making
import AccessRules.Proofs.Expression.Token
import AccessRules.Proofs.Rule.Readable
import AccessRules.Proofs.Expression.Operand
import AccessRules.Proofs.Expression.Fault
import AccessRules.Proofs.Expression.Supply
import AccessRules.Proofs.Expression.Term
import AccessRules.Proofs.Expression.Shape
import AccessRules.Proofs.Expression.Evaluation
import AccessRules.Proofs.Rule.Rows
import AccessRules.Proofs.Rule.Labels
import AccessRules.Proofs.Rule.Spelling
import AccessRules.Proofs.Expression.Spelling
import AccessRules.Proofs.Rule.Fold
import AccessRules.Proofs.Rule.NormalForm
import AccessRules.Proofs.Expression.RoundTrip
import AccessRules.Proofs.Recipient.Order
import AccessRules.Proofs.Rule.Equivalence
import AccessRules.Proofs.Rule.Matching
import AccessRules.Proofs.Rule.Meaning
import AccessRules.Proofs.Rule.Verdict
import AccessRules.Proofs.Expression.Rearrangement
import AccessRules.Proofs.Expression.Equivalence
import AccessRules.Proofs.Expression.Canonical
import AccessRules.Proofs.Expression.Limit
import AccessRules.Proofs.Expression.Composition
import AccessRules.Proofs.Rule.Size
import AccessRules.Proofs.Rule.Retraction
import AccessRules.Proofs.Rule.Conservation
import AccessRules.Proofs.Rule.Congruence
import AccessRules.Proofs.Rule.Places
import AccessRules.Proofs.Rule.Labelling
import AccessRules.Proofs.Expression.Complete
import AccessRules.Proofs.Expression.SpelledTokens
import AccessRules.Proofs.Command.Output
import AccessRules.Proofs.Command.Stream
import AccessRules.Proofs.Command.Agreement
import AccessRules.Proofs.Command.Source
import AccessRules.Proofs.Command.Outline
import AccessRules.Proofs.Json.Text
import AccessRules.Proofs.Json.Document
import AccessRules.Proofs.Rule.Document
import AccessRules.Proofs.Rule.Slots
import AccessRules.Proofs.Command.Document
import AccessRules.Proofs.Command.Naming
import AccessRules.Proofs.Command.Arguments
import AccessRules.Proofs.Command.Settings
import AccessRules.Proofs.Expression.Order
import AccessRules.Proofs.Rule.Combining
import AccessRules.Proofs.Rule.Walk
import AccessRules.Proofs.Text.Word
import AccessRules.Proofs.Command.LimitNumeral
import AccessRules.Proofs.Text.ByteOrder
import AccessRules.Proofs.Recipient.Sorting
import AccessRules.Proofs.Rule.Calls
import AccessRules.Proofs.Rule.Postfix
import AccessRules.Proofs.Expression.Log
