import FieldFormula.Builtin.Signature
import FieldFormula.Main
import FieldFormula.Proofs.Logic.Preservation
import FieldFormula.Proofs.Output.Closure
import FieldFormula.Proofs.Output.Confinement
import FieldFormula.Proofs.Parser.Positions
import FieldFormula.Proofs.Script.Grouping
import FieldFormula.Proofs.Sql.Grouping
import FieldFormula.Proofs.Token.Coverage
import FieldFormula.Proofs.Parser.Invariants
import FieldFormula.Proofs.Token.Faults
import FieldFormula.Proofs.Compilation.Locations
import FieldFormula.Proofs.Expr.Marks
import FieldFormula.Proofs.Basic
import FieldFormula.Proofs.Parser.Numbering
import FieldFormula.Proofs.Typing.Marks
import FieldFormula.Proofs.Compilation.Sessions
import FieldFormula.Proofs.Token.Joining
import FieldFormula.Proofs.Token.Quotation
import FieldFormula.Proofs.Parser.Alignment
import FieldFormula.Proofs.Parser.Sequences
import FieldFormula.Proofs.Compilation.Statements
import FieldFormula.Proofs.Compilation.Layout
import FieldFormula.Proofs.Parser.Failure
import FieldFormula.Proofs.Parser.Replay
import FieldFormula.Proofs.Parser.Lookahead
import FieldFormula.Proofs.Parser.Viability
import FieldFormula.Proofs.Compilation.Fallbacks
import FieldFormula.Proofs.Compilation.Mentions
import FieldFormula.Proofs.Json.Reading
import FieldFormula.Proofs.Schema.Rendering
import FieldFormula.Proofs.Parser.Limit
import FieldFormula.Proofs.Parser.Height
import FieldFormula.Proofs.Compilation.NullTests
import FieldFormula.Proofs.Script.Evaluation
import FieldFormula.Proofs.Script.Interpolation
import FieldFormula.Proofs.Typing.Blame
import FieldFormula.Proofs.Typing.Parentheses
import FieldFormula.Proofs.Text.Literals
import FieldFormula.Proofs.Token.Fields
import FieldFormula.Proofs.Token.Runs
import FieldFormula.Proofs.Decimal.Exactness
import FieldFormula.Proofs.Compilation.Numerals
import FieldFormula.Proofs.Decimal.Rounding
import FieldFormula.Proofs.Parser.Alarm
import FieldFormula.Proofs.Parser.Validity
