import Reckoner.Stock
import Reckoner.Proofs.Grammar
import Reckoner.Proofs.Grammar.Recognition
import Reckoner.Proofs.Number.Bits
import Reckoner.Proofs.Number.Decimal
import Reckoner.Proofs.Number.Literal
import Reckoner.Proofs.Number.Rounding
import Reckoner.Proofs.Number.Integral
import Reckoner.Proofs.CallText
import Reckoner.Proofs.Language
import Reckoner.Proofs.Logged
import Reckoner.Proofs.Scan
import Reckoner.Proofs.Rendering
import Reckoner.Proofs.Arithmetic
import Reckoner.Proofs.Formula
import Reckoner.Proofs.Run
import Reckoner.Proofs.Evaluation
import Reckoner.Proofs.Failures
import Reckoner.Proofs.Agenda
import Reckoner.Proofs.Invocations
import Reckoner.Proofs.Context
import Reckoner.Proofs.Finiteness
import Reckoner.Proofs.Nesting
import Reckoner.Proofs.Nesting.Limit
import Reckoner.Proofs.Fault.Lexeme
import Reckoner.Proofs.Spacing
import Reckoner.Proofs.Fault
import Reckoner.Proofs.Attribution
import Reckoner.Proofs.Records.Scanning
import Reckoner.Proofs.Records.Steps
import Reckoner.Proofs.Records
import Reckoner.Proofs.Independence
import Reckoner.Proofs.Ordering
import Reckoner.Proofs.Locality
import Reckoner.Proofs.Session
import Reckoner.Proofs.CallText.Delimiting
import Reckoner.Proofs.Postorder
import Reckoner.Proofs.Stock
import Reckoner.Proofs.Number.Order
import Reckoner.Proofs.Stock.Extremes
import Reckoner.Proofs.Cursor.Reading
import Reckoner.Proofs.Cursor.Stack
import Reckoner.Proofs.Cursor.Agreement
import Reckoner.Proofs.Cursor.Invariant
import Reckoner.Proofs.Cursor
