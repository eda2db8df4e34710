import ContentSchema.Assembly.Basic
import ContentSchema.Assembly.Components
import ContentSchema.Chains
import ContentSchema.Command.Arguments
import ContentSchema.Command.Count
import ContentSchema.Command.Directory
import ContentSchema.Command.Report
import ContentSchema.Command.Run
import ContentSchema.Command.Style
import ContentSchema.Config
import ContentSchema.Main
import ContentSchema.Proofs.Assembly.Grouping
import ContentSchema.Proofs.Assembly.Integrity
import ContentSchema.Proofs.Assembly.Modes
import ContentSchema.Proofs.Assembly.Outcome
import ContentSchema.Proofs.Assembly.Repair
import ContentSchema.Proofs.Assembly.Restated
import ContentSchema.Proofs.Chains.Enumeration
import ContentSchema.Proofs.Description.Clause
import ContentSchema.Proofs.Description.Supply
import ContentSchema.Proofs.Description.Given
import ContentSchema.Proofs.Line.Clean
import ContentSchema.Proofs.Line.Language
import ContentSchema.Proofs.Schema.Canonical
import ContentSchema.Proofs.Schema.Described
import ContentSchema.Proofs.Schema.Line
import ContentSchema.Proofs.Schema.Links
import ContentSchema.Proofs.Schema.Reformatted
import ContentSchema.Proofs.Token.Detail
import ContentSchema.Proofs.Token.Range
import ContentSchema.Schema.Json
import ContentSchema.Schema.Text
import ContentSchema.Proofs.Assembly.Strict
import ContentSchema.Proofs.Line.Invariant
import ContentSchema.Proofs.Schema.Settled
import ContentSchema.Proofs.Line.Append
import ContentSchema.Proofs.Line.Edit
import ContentSchema.Proofs.Schema.Layout
import ContentSchema.Proofs.Assembly.Retold
import ContentSchema.Proofs.Assembly.Order
import ContentSchema.Proofs.Line.Prefix
import ContentSchema.Proofs.Line.Label
import ContentSchema.Proofs.Line.Repeat
import ContentSchema.Proofs.Schema.Renewed
import ContentSchema.Proofs.Schema.Rewritten
import ContentSchema.Proofs.Json.Reader
import ContentSchema.Proofs.Schema.Json
import ContentSchema.Proofs.Assembly.Components
import ContentSchema.Proofs.Command.Run
import ContentSchema.Proofs.Description.Clash
import ContentSchema.Proofs.Description.Conflict
import ContentSchema.Proofs.Description.Outcome
import ContentSchema.Proofs.Chains.Cycle
import ContentSchema.Proofs.Description.Permuted
import ContentSchema.Proofs.Chains.Worklist
import ContentSchema.Proofs.Schema.Chains
import ContentSchema.Proofs.Grammar.Table
import ContentSchema.Proofs.Grammar.Document
import ContentSchema.Proofs.Line.Scanned
import ContentSchema.Proofs.Token.Misfit
