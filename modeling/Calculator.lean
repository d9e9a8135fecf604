import Calculator.Desk
import Calculator.Main
import Calculator.Proofs.Grammar
import Calculator.Proofs.Reading
import Calculator.Proofs.Parse
import Calculator.Proofs.Value
import Calculator.Proofs.Balance
import Calculator.Proofs.Lexing
import Calculator.Proofs.Nesting
import Calculator.Proofs.Places
import Calculator.Proofs.Compose
import Calculator.Proofs.Binary64.Rounding
import Calculator.Proofs.ReadBack
import Calculator.Proofs.NumberText
import Calculator.Proofs.Printing
import Calculator.Proofs.Recursion
import Calculator.Proofs.Flat
import Calculator.Proofs.Session.Run
import Calculator.Proofs.Session.Null
import Calculator.Proofs.Session.Log
import Calculator.Proofs.NumberWords
import Calculator.Proofs.Session.Isolation
import Calculator.Proofs.Words
import Calculator.Proofs.Session.Unanswered
import Calculator.Proofs.Binary64.Sign
import Calculator.Proofs.Restoring
import Calculator.Proofs.Binary64.Nearest
import Calculator.Proofs.Decimal.Rounded
import Calculator.Proofs.Scientific
import Calculator.Proofs.Session.Agreement
import Calculator.Proofs.Text.Encoding
import Calculator.Proofs.CommandLine
import Calculator.Proofs.JsonLine
import Calculator.Proofs.Session.Transcript
import Calculator.Proofs.Mismatch
import Calculator.Proofs.Screening
import Calculator.Proofs.Depth
import Calculator.Proofs.JsonReader
import Calculator.Proofs.JsonDecoding
import Calculator.Proofs.Groups
import Calculator.Proofs.Leftover
import Calculator.Proofs.Written
import Calculator.Proofs.Decimal.Nearest
import Calculator.Proofs.Literals
import Calculator.Proofs.Overlap
import Calculator.Proofs.Scientific.Grammar
import Calculator.Proofs.NumberReaders
import Calculator.Proofs.Roles
import Calculator.Proofs.Recasing
import Calculator.Proofs.NaN
import Calculator.Proofs.ScreenedText
import Calculator.Proofs.Lookahead
import Calculator.Proofs.WrittenTen
