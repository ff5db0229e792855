import LogicFormat.Term.Goals
import LogicFormat.Term.Equality
import LogicFormat.Clause.Printer
import LogicFormat.Session.Basic
import LogicFormat.Control.Span
import LogicFormat.Proofs.Control.Grammar
import LogicFormat.Proofs.Control.Coverage
import LogicFormat.Proofs.Cell.Lines
import LogicFormat.Proofs.Cell.Slots
import LogicFormat.Proofs.Cell.Widths
import LogicFormat.Proofs.Control.Consumption
import LogicFormat.Proofs.Control.Lines
import LogicFormat.Proofs.Control.Counting
import LogicFormat.Proofs.Control.TabStops
import LogicFormat.Proofs.Control.Faults
import LogicFormat.Proofs.Text.Lines
import LogicFormat.Proofs.Term.Written
import LogicFormat.Proofs.Term.Quotation
import LogicFormat.Proofs.Clause.LineBreaks
import LogicFormat.Proofs.Clause.Shift
import LogicFormat.Proofs.Term.Controls
import LogicFormat.Proofs.Clause.Columns
import LogicFormat.Proofs.Control.Reading
import LogicFormat.Proofs.Notation.Escape
import LogicFormat.Proofs.Notation.Lossless
import LogicFormat.Proofs.Cell.Margin
import LogicFormat.Proofs.Cell.Conservation
import LogicFormat.Proofs.Control.Plain
import LogicFormat.Proofs.Clause.Association
import LogicFormat.Proofs.Clause.Distinct
import LogicFormat.Proofs.Session.Bindings
import LogicFormat.Proofs.Number.Fixed
import LogicFormat.Proofs.Number.Grouped
import LogicFormat.Proofs.Number.Separated
import LogicFormat.Proofs.Session.Output
import LogicFormat.Proofs.Control.Order
import LogicFormat.Proofs.Cell.Frames
import LogicFormat.Proofs.Control.Tables
import LogicFormat.Proofs.Clause.Regrouping
import LogicFormat.Proofs.Term.Minus
import LogicFormat.Proofs.Clause.FullStop
import LogicFormat.Proofs.Clause.Variables
import LogicFormat.Proofs.Control.Scaled
import LogicFormat.Proofs.Term.Chain
import LogicFormat.Proofs.Term.ReadingOrder
import LogicFormat.Proofs.Term.Subterms
import LogicFormat.Proofs.Term.Equality
import LogicFormat.Proofs.Term.Hashing
import LogicFormat.Proofs.Term.Distinct
import LogicFormat.Proofs.Cell.Spelled
import LogicFormat.Proofs.Control.Seams
import LogicFormat.Proofs.Term.Listed
import LogicFormat.Proofs.Term.Bars
import LogicFormat.Proofs.Clause.Listed
