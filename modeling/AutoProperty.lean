import AutoProperty.Command.LogFilter
import AutoProperty.Main
import AutoProperty.Proofs.Fix.Automatic
import AutoProperty.Proofs.Fix.Outcome
import AutoProperty.Proofs.Fix.Rebound
import AutoProperty.Proofs.Syntax.Balance
import AutoProperty.Proofs.Syntax.BlankLines
import AutoProperty.Proofs.Syntax.ByteScanning
import AutoProperty.Proofs.Syntax.Climbing
import AutoProperty.Proofs.Syntax.Covering
import AutoProperty.Proofs.Syntax.Diagnostics
import AutoProperty.Proofs.Syntax.Layouts
import AutoProperty.Proofs.Syntax.Lookahead
import AutoProperty.Proofs.Syntax.Operators
import AutoProperty.Proofs.Syntax.Ownership
import AutoProperty.Proofs.Syntax.ParsedTrees
import AutoProperty.Proofs.Syntax.Reduction
import AutoProperty.Proofs.Text.LinePositions
import AutoProperty.Proofs.Text.Restored
import AutoProperty.Proofs.Workspace.Meaning
import AutoProperty.Proofs.Workspace.Orders
import AutoProperty.Proofs.Workspace.Reported
import AutoProperty.Proofs.Workspace.Scopes
import AutoProperty.Proofs.Workspace.Sessions
import AutoProperty.Syntax.Identifier
