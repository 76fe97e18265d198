import Notebook.Main
import Notebook.Files.Directory
import Notebook.Program
import Notebook.Register
import Notebook.Report.Record
import Notebook.Report.Variables
import Notebook.Report.Diagnostic
import Notebook.Service
import Notebook.Session
import Notebook.Starter
import Notebook.Proofs.Cutting
import Notebook.Proofs.Numeral
import Notebook.Proofs.Token
import Notebook.Proofs.Lexical
import Notebook.Proofs.Rules
import Notebook.Proofs.Grammar
import Notebook.Proofs.Bindings
import Notebook.Proofs.Register
import Notebook.Proofs.Word
import Notebook.Proofs.Evaluation
import Notebook.Proofs.Entry
import Notebook.Proofs.Shape
import Notebook.Proofs.Fallback
import Notebook.Proofs.Causality
import Notebook.Proofs.Mistyped
import Notebook.Proofs.Ending
import Notebook.Proofs.Idle
import Notebook.Proofs.Value
import Notebook.Proofs.Reading
import Notebook.Proofs.Unknown
import Notebook.Proofs.Edit
import Notebook.Proofs.Agreement
import Notebook.Proofs.Limit
import Notebook.Proofs.Places
import Notebook.Proofs.Session
import Notebook.Proofs.Utf8
import Notebook.Proofs.Partition
import Notebook.Proofs.Scan
import Notebook.Proofs.Undo
import Notebook.Proofs.Increment
import Notebook.Proofs.Path
import Notebook.Proofs.Exchange
import Notebook.Proofs.Inlining
import Notebook.Proofs.Rounding
import Notebook.Proofs.Uncertainty
import Notebook.Proofs.Shortest
import Notebook.Proofs.Written
import Notebook.Proofs.Printing
import Notebook.Proofs.Creation
import Notebook.Proofs.Display
import Notebook.Proofs.Figure
import Notebook.Proofs.Range
import Notebook.Proofs.Raw
import Notebook.Proofs.Exact
import Notebook.Proofs.Nearest
