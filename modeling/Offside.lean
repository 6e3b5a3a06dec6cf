import Offside.Main
import Offside.Proofs.Expr.Bracketed
import Offside.Proofs.Expr.Reading
import Offside.Proofs.Module.Accounts
import Offside.Proofs.Module.Append
import Offside.Proofs.Module.Depth
import Offside.Proofs.Module.Fault
import Offside.Proofs.Module.Prefix
import Offside.Proofs.Scan.Append
import Offside.Proofs.Scan.RoundTrip
import Offside.Proofs.Expr.Limit
import Offside.Proofs.Module.Limit
import Offside.Proofs.Module.Located
import Offside.Proofs.Module.Renumber
import Offside.Proofs.Module.Nest
import Offside.Proofs.Module.ElseIf
import Offside.Proofs.Scan.Indentation
import Offside.Proofs.Scan.Closed
import Offside.Proofs.Scan.CarriageReturn
import Offside.Proofs.Scan.TabWidth
import Offside.Proofs.Module.Member
import Offside.Proofs.Symbol.Edit
import Offside.Proofs.Scan.Output
import Offside.Proofs.Expr.Supplied
import Offside.Proofs.Module.Supplied
import Offside.Proofs.Symbol.Qualified
import Offside.Proofs.Symbol.Shadow
import Offside.Proofs.Module.Named
import Offside.Proofs.Module.Unambiguous
import Offside.Proofs.Checked.Run
import Offside.Proofs.Checked.Resolve
import Offside.Proofs.Checked.Parse
import Offside.Proofs.Checked.Frames
import Offside.Proofs.Checked.Tree
import Offside.Proofs.Checked.Render
import Offside.Proofs.Checked.Translate
import Offside.Proofs.Checked.Mirror
import Offside.Proofs.Checked.Blocks
import Offside.Proofs.Checked.Scan
import Offside.Proofs.Checked.Cursor
import Offside.Proofs.Checked.Scanned
import Offside.Proofs.Checked.Total
import Offside.Proofs.Checked.Progress
import Offside.Proofs.Checked.Nesting
import Offside.Proofs.Scan.Munch
import Offside.Proofs.Scan.Numeral
import Offside.Proofs.Module.Argument
import Offside.Proofs.Module.Swap
import Offside.Proofs.Expr.Nested
import Offside.Proofs.Expr.Unmatched
import Offside.Proofs.Expr.Joined
import Offside.Proofs.Expr.Replace
import Offside.Proofs.Expr.Grouping
import Offside.Proofs.Binary64.Overflow
import Offside.Proofs.Scan.Float
