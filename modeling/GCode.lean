import GCode.Main
import GCode.Proofs.Code.Reading
import GCode.Proofs.Command.Grammar
import GCode.Proofs.Command.Iteration
import GCode.Proofs.Command.Layout
import GCode.Proofs.Command.LeadingComment
import GCode.Proofs.Command.Lookup
import GCode.Proofs.Command.NormalForm
import GCode.Proofs.Command.Rendering
import GCode.Proofs.Command.Settings
import GCode.Proofs.Command.TrailingComment
import GCode.Proofs.Comment.Cutting
import GCode.Proofs.Decimal.Exactness
import GCode.Proofs.Decimal.Truncation
import GCode.Proofs.Field.Apart
import GCode.Proofs.Field.Form
import GCode.Proofs.Field.Grammar
import GCode.Proofs.Field.Spacing
import GCode.Proofs.Guarded.Basic
import GCode.Proofs.Guarded.Command
import GCode.Proofs.Guarded.Decimal
import GCode.Proofs.Guarded.Digits
import GCode.Proofs.Guarded.Field
import GCode.Proofs.Guarded.Literal
import GCode.Proofs.Guarded.Packing
import GCode.Proofs.Guarded.Places
import GCode.Proofs.Guarded.Reading
import GCode.Proofs.Guarded.Settings
import GCode.Proofs.Lines.Decoding
import GCode.Proofs.Lines.Resuming
import GCode.Proofs.Lines.Splitting
import GCode.Proofs.Literal.Decoding
import GCode.Proofs.Literal.Encoding
import GCode.Proofs.Number.Decimal
import GCode.Proofs.Number.RealText
import GCode.Proofs.Number.Scaling
import GCode.Proofs.Report.Joining
import GCode.Proofs.Settings.Building
import GCode.Proofs.Settings.LetterCase
import GCode.Proofs.Settings.Loading
import GCode.Settings.Step
